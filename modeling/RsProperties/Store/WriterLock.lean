import RsProperties.Store.Contexts
import RsProperties.Library.Trace

/-!
# One writer per directory

`SystemProperties::new_area` unlinks and recreates every area file of the directory, so two writers at once
would destroy each other's files. What keeps them apart is a non-blocking `flock` on `.writer_lock`, taken
before the first unlink and held until the instance is gone.

Any number of actors, each a caller of `new_area`, interleave their steps on one directory; a process with
several instances is several actors, and a process that dies crashes each of them. A directory maps
names to inodes. On a file system that ignores case, a file is reached under the folded name (`fileOf`).
-/

namespace RsProperties.WriterLock

open ByteMem

/-! ### The system -/

/-- Where an actor is in `new_area`; a file that has been created is remembered with its inode. -/
inductive Phase
  | idle
  /-- `property_info` is loaded and gave these area files. -/
  | loaded (files : List Bytes)
  /-- `.writer_lock` is open. -/
  | opened (files : List Bytes) (lock : ℕ)
  /-- The flock is held; the files behind `mapped` are still to be recreated. -/
  | creating (lock : ℕ) (mapped : List (Bytes × ℕ)) (pending : List Bytes)
  /-- In `new_rw` of `file`, between the unlink and the create. -/
  | unlinked (lock : ℕ) (mapped : List (Bytes × ℕ)) (file : Bytes) (pending : List Bytes)
  /-- `new_area` has returned the instance. -/
  | live (lock : ℕ) (mapped : List (Bytes × ℕ))
  deriving DecidableEq

namespace Phase

/-- The inode the actor holds the flock of: it is past its successful flock and not yet dropped. -/
def lock : Phase → Option ℕ
  | .creating lock _ _ => some lock
  | .unlinked lock _ _ _ => some lock
  | .live lock _ => some lock
  | _ => none

/-- The inode of `.writer_lock` the actor has open. -/
def fd : Phase → Option ℕ
  | .opened _ lock => some lock
  | p => p.lock

/-- The area files the actor has created and mapped. -/
def mapped : Phase → List (Bytes × ℕ)
  | .creating _ mapped _ => mapped
  | .unlinked _ mapped _ _ => mapped
  | .live _ mapped => mapped
  | _ => []

/-- The area files the actor is still going to recreate. -/
def pending : Phase → List Bytes
  | .loaded files => files
  | .opened files _ => files
  | .creating _ _ pending => pending
  | .unlinked _ _ file pending => file :: pending
  | _ => []

end Phase

/-- The directory, the kernel's table of exclusive locks, and the actors. -/
structure World where
  dir : Bytes → Option ℕ
  flocks : ℕ → Option ℕ
  phase : ℕ → Phase

inductive Event
  /-- A call of `new_area` has loaded `property_info`. -/
  | load (i : ℕ)
  | openLock (i : ℕ)
  | flock (i : ℕ)
  /-- The flock is refused, and the call fails. -/
  | flockBusy (i : ℕ)
  | unlink (i : ℕ) (file : Bytes)
  | create (i : ℕ) (file : Bytes)
  | ready (i : ℕ)
  /-- The call fails at any other point. -/
  | fail (i : ℕ)
  | drop (i : ℕ)
  | crash (i : ℕ)
  deriving DecidableEq

/-- The event unlinks or creates an area file on behalf of the actor. -/
def Event.Touches (i : ℕ) : Event → Prop
  | .unlink j _ => j = i
  | .create j _ => j = i
  | _ => False

/-- The actor of an event. -/
def Event.actor : Event → ℕ
  | .load i => i
  | .openLock i => i
  | .flock i => i
  | .flockBusy i => i
  | .unlink i _ => i
  | .create i _ => i
  | .ready i => i
  | .fail i => i
  | .drop i => i
  | .crash i => i

/-- The file a name reaches. -/
def fileOf (ignoreCase : Bool) (name : Bytes) : Bytes :=
  if ignoreCase then toAsciiLowercase name else name

def lockFile (ignoreCase : Bool) : Bytes := fileOf ignoreCase writerLockName

/-- The files `new_area` recreates, in order: one for each good context, then `properties_serial`. -/
def areaFiles (ignoreCase : Bool) (slots : List (Option Bytes)) : List Bytes :=
  (slots.reduceOption ++ [propertiesSerialName]).map (fileOf ignoreCase)

namespace World

def setPhase (w : World) (i : ℕ) (p : Phase) : World :=
  { w with phase := Function.update w.phase i p }

/-- The actor's files are closed, and with `.writer_lock` the flock on it. -/
def close (w : World) (i : ℕ) : World where
  dir := w.dir
  flocks := fun l => if w.flocks l = some i then none else w.flocks l
  phase := Function.update w.phase i .idle

section Lemmas

variable (w : World) (i : ℕ) (p : Phase)

@[simp]
theorem setPhase_self : (w.setPhase i p).phase i = p := Function.update_self ..

theorem setPhase_of_ne {j : ℕ} (h : j ≠ i) : (w.setPhase i p).phase j = w.phase j :=
  Function.update_of_ne h ..

@[simp]
theorem close_self : (w.close i).phase i = .idle := Function.update_self ..

theorem close_of_ne {j : ℕ} (h : j ≠ i) : (w.close i).phase j = w.phase j :=
  Function.update_of_ne h ..

end Lemmas

end World

/-- One step of one actor. The contents of `property_info` are whatever stands there when they are
loaded. -/
inductive Step (ignoreCase : Bool) : World → Event → World → Prop
  | load {w : World} {i : ℕ} {info : PropertyInfoArea} {slots : List (Option Bytes)}
      (hi : w.phase i = .idle) (hinfo : info.contextNames = .ok slots) :
      Step ignoreCase w (.load i) (w.setPhase i (.loaded (areaFiles ignoreCase slots)))
  | openExisting {w : World} {i : ℕ} {files : List Bytes} {lock : ℕ}
      (hi : w.phase i = .loaded files) (hdir : w.dir (lockFile ignoreCase) = some lock) :
      Step ignoreCase w (.openLock i) (w.setPhase i (.opened files lock))
  | openNew {w : World} {i : ℕ} {files : List Bytes} {lock : ℕ}
      (hi : w.phase i = .loaded files) (hdir : w.dir (lockFile ignoreCase) = none)
      (hnew : ∀ name, w.dir name ≠ some lock) :
      Step ignoreCase w (.openLock i)
        { w.setPhase i (.opened files lock) with
          dir := Function.update w.dir (lockFile ignoreCase) (some lock) }
  | flock {w : World} {i : ℕ} {files : List Bytes} {lock : ℕ}
      (hi : w.phase i = .opened files lock) (hfree : w.flocks lock = none) :
      Step ignoreCase w (.flock i)
        { w.setPhase i (.creating lock [] files) with
          flocks := Function.update w.flocks lock (some i) }
  | flockBusy {w : World} {i : ℕ} {files : List Bytes} {lock j : ℕ}
      (hi : w.phase i = .opened files lock) (hheld : w.flocks lock = some j) :
      Step ignoreCase w (.flockBusy i) (w.close i)
  | unlink {w : World} {i lock : ℕ} {mapped : List (Bytes × ℕ)} {file : Bytes}
      {pending : List Bytes} (hi : w.phase i = .creating lock mapped (file :: pending)) :
      Step ignoreCase w (.unlink i file)
        { w.setPhase i (.unlinked lock mapped file pending) with
          dir := Function.update w.dir file none }
  /-- The unlink fails, which is only logged. -/
  | unlinkFails {w : World} {i lock : ℕ} {mapped : List (Bytes × ℕ)} {file : Bytes}
      {pending : List Bytes} (hi : w.phase i = .creating lock mapped (file :: pending)) :
      Step ignoreCase w (.unlink i file) (w.setPhase i (.unlinked lock mapped file pending))
  | create {w : World} {i lock ino : ℕ} {mapped : List (Bytes × ℕ)} {file : Bytes}
      {pending : List Bytes} (hi : w.phase i = .unlinked lock mapped file pending)
      (hexcl : w.dir file = none) (hnew : ∀ name, w.dir name ≠ some ino) :
      Step ignoreCase w (.create i file)
        { w.setPhase i (.creating lock (mapped ++ [(file, ino)]) pending) with
          dir := Function.update w.dir file (some ino) }
  | ready {w : World} {i lock : ℕ} {mapped : List (Bytes × ℕ)}
      (hi : w.phase i = .creating lock mapped []) :
      Step ignoreCase w (.ready i) (w.setPhase i (.live lock mapped))
  | fail {w : World} {i : ℕ} (hi : ∀ lock mapped, w.phase i ≠ .live lock mapped) :
      Step ignoreCase w (.fail i) (w.close i)
  | drop {w : World} {i lock : ℕ} {mapped : List (Bytes × ℕ)}
      (hi : w.phase i = .live lock mapped) : Step ignoreCase w (.drop i) (w.close i)
  | crash {w : World} {i : ℕ} : Step ignoreCase w (.crash i) (w.close i)

/-- Any directory, before anyone has called `new_area`. -/
def Initial (w : World) : Prop := (∀ l, w.flocks l = none) ∧ ∀ i, w.phase i = .idle

/-! ### The files of a call -/

variable {ignoreCase : Bool}

theorem fileOf_reserved {name : Bytes} (h : name ∈ reservedFilenames) :
    fileOf ignoreCase name = name := by
  have hl : ∀ f ∈ reservedFilenames, toAsciiLowercase f = f := by decide
  cases ignoreCase with
  | false => rfl
  | true => exact hl name h

/-- No context reaches a reserved file, under either reading of names. -/
theorem fileOf_context_ne {name file : Bytes} (h : ContextName name) (hf : file ∈ reservedFilenames) :
    fileOf ignoreCase name ≠ fileOf ignoreCase file := by
  rw [fileOf_reserved hf]
  cases ignoreCase with
  | false => exact h.ne_reserved hf
  | true =>
    rintro rfl
    exact h.notReserved hf

/-- **The files of a call** are pairwise different, and none of them is `.writer_lock`. -/
theorem areaFiles_ok {info : PropertyInfoArea} {slots : List (Option Bytes)}
    (h : info.contextNames = .ok slots) :
    (areaFiles ignoreCase slots).Nodup ∧ lockFile ignoreCase ∉ areaFiles ignoreCase slots := by
  obtain ⟨hgood, hnodup⟩ := PropertyInfoArea.contextNames_eq_ok h
  have hcontext : ∀ f ∈ slots.reduceOption.map (fileOf ignoreCase), ∀ file ∈ reservedFilenames,
      f ≠ fileOf ignoreCase file := by
    intro f hf file hfile
    obtain ⟨name, hname, rfl⟩ := List.mem_map.mp hf
    exact fileOf_context_ne (hgood name (List.reduceOption_mem_iff.mp hname)) hfile
  have hfiles : (slots.reduceOption.map (fileOf ignoreCase)).Nodup := by
    cases ignoreCase with
    | true => exact hnodup
    | false =>
      have hid : slots.reduceOption.map (fileOf false) = slots.reduceOption := List.map_id _
      rw [hid]
      exact List.Nodup.of_map _ hnodup
  rw [areaFiles, List.map_append, List.map_singleton]
  constructor
  · refine List.nodup_append.mpr ⟨hfiles, by simp, fun f hf g hg => ?_⟩
    rw [List.mem_singleton.mp hg]
    exact hcontext f hf _ (by decide)
  · intro hm
    rcases List.mem_append.mp hm with hm | hm
    · exact hcontext _ hm writerLockName (by decide) rfl
    · have heq := List.mem_singleton.mp hm
      rw [lockFile, fileOf_reserved (by decide), fileOf_reserved (by decide)] at heq
      revert heq
      decide

/-! ### The invariant -/

/-- What a directory owes an actor: the `.writer_lock` it has open is the one of the directory, its files
are distinct and none of them is the lock, and the ones it has mapped are still there. -/
structure PhaseOk (ignoreCase : Bool) (dir : Bytes → Option ℕ) (p : Phase) : Prop where
  fd : ∀ l, p.fd = some l → dir (lockFile ignoreCase) = some l
  files : (p.mapped.map Prod.fst ++ p.pending).Nodup
  notLock : lockFile ignoreCase ∉ p.mapped.map Prod.fst ++ p.pending
  mapped : ∀ file ino, (file, ino) ∈ p.mapped → dir file = some ino

/-- The lock table lists exactly the actors past their flock. -/
structure Inv (ignoreCase : Bool) (w : World) : Prop where
  phase : ∀ i, PhaseOk ignoreCase w.dir (w.phase i)
  flocks : ∀ l i, w.flocks l = some i ↔ (w.phase i).lock = some l

theorem phaseOk_idle (dir : Bytes → Option ℕ) : PhaseOk ignoreCase dir .idle := by
  refine ⟨fun l hl => ?_, List.nodup_nil, List.not_mem_nil, fun file ino hm => ?_⟩
  · cases hl
  · cases hm

theorem Phase.fd_of_lock {p : Phase} {l : ℕ} (h : p.lock = some l) : p.fd = some l := by
  cases p <;> first | exact h | cases h

/-- Only an actor past its flock has files mapped. -/
theorem Phase.mapped_eq_nil {p : Phase} (h : p.lock = none) : p.mapped = [] := by
  cases p <;> first | rfl | cases h

section Inv

variable {w w' : World} {i j : ℕ}

/-- **Mutual exclusion.** -/
theorem Inv.holder_unique (h : Inv ignoreCase w) {l l' : ℕ} (hi : (w.phase i).lock = some l)
    (hj : (w.phase j).lock = some l') : i = j := by
  have hdir := (h.phase i).fd l (Phase.fd_of_lock hi)
  rw [(h.phase j).fd l' (Phase.fd_of_lock hj)] at hdir
  obtain rfl := Option.some.inj hdir
  have hheld := (h.flocks l' i).mpr hi
  rw [(h.flocks l' j).mpr hj] at hheld
  exact (Option.some.inj hheld).symm

/-- While one actor is past its flock, no other has a file mapped. -/
theorem Inv.mapped_eq_nil (h : Inv ignoreCase w) {l : ℕ} (hi : (w.phase i).lock = some l)
    (hj : j ≠ i) : (w.phase j).mapped = [] := by
  refine Phase.mapped_eq_nil ?_
  cases hl : (w.phase j).lock with
  | none => rfl
  | some l' => exact absurd (h.holder_unique hl hi) hj

/-- An actor moves on, without touching the directory or the lock table. -/
theorem Inv.setPhase (h : Inv ignoreCase w) {p : Phase} (hp : PhaseOk ignoreCase w.dir p)
    (hlock : p.lock = (w.phase i).lock) : Inv ignoreCase (w.setPhase i p) := by
  refine ⟨fun j => ?_, fun l j => ?_⟩
  · by_cases hj : j = i
    · subst hj
      rw [World.setPhase_self]
      exact hp
    · rw [World.setPhase_of_ne _ _ _ hj]
      exact h.phase j
  · by_cases hj : j = i
    · subst hj
      rw [World.setPhase_self, hlock]
      exact h.flocks l j
    · rw [World.setPhase_of_ne _ _ _ hj]
      exact h.flocks l j

/-- An actor past its flock changes the entry of a file it has not mapped yet. -/
theorem Inv.setDir (h : Inv ignoreCase w) {l : ℕ} (hi : (w.phase i).lock = some l) {file : Bytes}
    {entry : Option ℕ} (hfile : file ≠ lockFile ignoreCase)
    (hnew : ∀ ino, (file, ino) ∈ (w.phase i).mapped → entry = some ino) :
    Inv ignoreCase { w with dir := Function.update w.dir file entry } := by
  refine ⟨fun j => ⟨fun l hl => ?_, (h.phase j).files, (h.phase j).notLock, fun f ino hm => ?_⟩,
    h.flocks⟩
  · dsimp only
    rw [Function.update_of_ne (Ne.symm hfile)]
    exact (h.phase j).fd l hl
  · dsimp only
    by_cases hj : j = i
    · subst hj
      by_cases hf : f = file
      · subst hf
        rw [Function.update_self]
        exact hnew ino hm
      · rw [Function.update_of_ne hf]
        exact (h.phase j).mapped f ino hm
    · dsimp only at hm
      rw [h.mapped_eq_nil hi hj] at hm
      cases hm

/-- `.writer_lock` appears in the directory: nobody had it open. -/
theorem Inv.setLockFile (h : Inv ignoreCase w) (hdir : w.dir (lockFile ignoreCase) = none)
    (l : ℕ) : Inv ignoreCase
      { w with dir := Function.update w.dir (lockFile ignoreCase) (some l) } := by
  have hfd : ∀ j, (w.phase j).fd = none := fun j => by
    cases hfd : (w.phase j).fd with
    | none => rfl
    | some l' =>
      have := (h.phase j).fd l' hfd
      rw [hdir] at this
      cases this
  have hlock : ∀ j, (w.phase j).lock = none := fun j => by
    cases hl : (w.phase j).lock with
    | none => rfl
    | some l' =>
      have := Phase.fd_of_lock hl
      rw [hfd j] at this
      cases this
  refine ⟨fun j => ⟨fun l' hl => ?_, (h.phase j).files, (h.phase j).notLock, fun f ino hm => ?_⟩,
    h.flocks⟩
  · dsimp only at hl
    rw [hfd j] at hl
    cases hl
  · dsimp only at hm
    rw [Phase.mapped_eq_nil (hlock j)] at hm
    cases hm

/-- The flock is taken. -/
theorem Inv.setFlock (h : Inv ignoreCase w) {l : ℕ} (hfree : w.flocks l = none)
    (hi : (w.phase i).lock = none) {p : Phase} (hp : PhaseOk ignoreCase w.dir p)
    (hlock : p.lock = some l) : Inv ignoreCase
      { w.setPhase i p with flocks := Function.update w.flocks l (some i) } := by
  refine ⟨fun j => ?_, fun l' j => ?_⟩
  · change PhaseOk ignoreCase w.dir ((w.setPhase i p).phase j)
    by_cases hj : j = i
    · subst hj
      rw [World.setPhase_self]
      exact hp
    · rw [World.setPhase_of_ne _ _ _ hj]
      exact h.phase j
  · change Function.update w.flocks l (some i) l' = some j ↔
      ((w.setPhase i p).phase j).lock = some l'
    by_cases hl : l' = l
    · subst hl
      rw [Function.update_self]
      by_cases hj : j = i
      · subst hj
        rw [World.setPhase_self]
        exact iff_of_true rfl hlock
      · rw [World.setPhase_of_ne _ _ _ hj, ← h.flocks l' j, hfree]
        simp [Ne.symm hj]
    · rw [Function.update_of_ne hl]
      by_cases hj : j = i
      · subst hj
        rw [World.setPhase_self, hlock, h.flocks l' j, hi]
        simp [Ne.symm hl]
      · rw [World.setPhase_of_ne _ _ _ hj]
        exact h.flocks l' j

/-- An actor's files are closed. -/
theorem Inv.close (h : Inv ignoreCase w) (i : ℕ) : Inv ignoreCase (w.close i) := by
  refine ⟨fun j => ?_, fun l j => ?_⟩
  · by_cases hj : j = i
    · subst hj
      rw [World.close_self]
      exact phaseOk_idle _
    · rw [World.close_of_ne _ _ hj]
      exact h.phase j
  · have hflocks : (w.close i).flocks l = if w.flocks l = some i then none else w.flocks l := rfl
    rw [hflocks]
    by_cases hj : j = i
    · subst hj
      rw [World.close_self]
      refine iff_of_false (fun hl => ?_) (by simp [Phase.lock])
      split_ifs at hl with hown
      exact hown hl
    · rw [World.close_of_ne _ _ hj, ← h.flocks l j]
      split_ifs with hown
      · refine iff_of_false (by simp) fun hl => hj ?_
        rw [hown] at hl
        exact (Option.some.inj hl).symm
      · rfl

/-- **One step** keeps the invariant. -/
theorem Inv.step (h : Inv ignoreCase w) {x : Event} (hstep : Step ignoreCase w x w') :
    Inv ignoreCase w' := by
  cases hstep with
  | @load i info slots hi hinfo =>
    obtain ⟨hnodup, hlock⟩ := @areaFiles_ok ignoreCase _ _ hinfo
    exact h.setPhase ⟨(by simp [Phase.fd, Phase.lock]), hnodup, hlock, (by simp [Phase.mapped])⟩
      (by rw [hi]; rfl)
  | @openExisting i files lock hi hdir =>
    have hp := h.phase i
    rw [hi] at hp
    refine h.setPhase ⟨fun l hl => ?_, hp.files, hp.notLock, hp.mapped⟩ (by rw [hi]; rfl)
    rw [hdir]
    exact hl
  | @openNew i files lock hi hdir =>
    have h' := h.setLockFile hdir lock
    have hp := h'.phase i
    dsimp only at hp
    rw [hi] at hp
    refine h'.setPhase ⟨fun l hl => ?_, hp.files, hp.notLock, hp.mapped⟩ (by dsimp only; rw [hi]; rfl)
    dsimp only
    rw [Function.update_self]
    exact hl
  | @flock i files lock hi hfree =>
    have hp := h.phase i
    rw [hi] at hp
    exact h.setFlock hfree (by rw [hi]; rfl) ⟨hp.fd, hp.files, hp.notLock, hp.mapped⟩ rfl
  | @flockBusy i => exact h.close i
  | @unlink i lock mapped file pending hi =>
    have hp := h.phase i
    rw [hi] at hp
    have h' : Inv ignoreCase (w.setPhase i (.unlinked lock mapped file pending)) :=
      h.setPhase ⟨hp.fd, hp.files, hp.notLock, hp.mapped⟩ (by rw [hi]; rfl)
    refine h'.setDir (i := i) (l := lock) (by rw [World.setPhase_self]; rfl) (fun he => ?_)
      fun ino hm => ?_
    · exact hp.notLock (he ▸ List.mem_append_right _ List.mem_cons_self)
    · rw [World.setPhase_self] at hm
      exact absurd rfl ((List.nodup_append.mp hp.files).2.2 file
        (List.mem_map_of_mem (f := Prod.fst) hm) file List.mem_cons_self)
  | @unlinkFails i lock mapped file pending hi =>
    have hp := h.phase i
    rw [hi] at hp
    exact h.setPhase ⟨hp.fd, hp.files, hp.notLock, hp.mapped⟩ (by rw [hi]; rfl)
  | @create i lock ino mapped file pending hi hexcl =>
    have hp := h.phase i
    rw [hi] at hp
    have hnew : ∀ ino, (file, ino) ∉ mapped := fun ino hm =>
      absurd rfl ((List.nodup_append.mp hp.files).2.2 file
        (List.mem_map_of_mem (f := Prod.fst) hm) file List.mem_cons_self)
    have h' : Inv ignoreCase { w with dir := Function.update w.dir file (some ino) } := by
      refine h.setDir (i := i) (l := lock) (by rw [hi]; rfl) (fun he => ?_) fun ino' hm => ?_
      · exact hp.notLock (he ▸ List.mem_append_right _ List.mem_cons_self)
      · rw [hi] at hm
        exact absurd hm (hnew ino')
    have hp' := h'.phase i
    dsimp only at hp'
    rw [hi] at hp'
    have hfiles : (mapped ++ [(file, ino)]).map Prod.fst ++ pending =
        mapped.map Prod.fst ++ file :: pending := by simp
    refine h'.setPhase ⟨hp'.fd, ?_, ?_, fun f ino' hm => ?_⟩ (by dsimp only; rw [hi]; rfl)
    · exact hfiles ▸ hp.files
    · exact hfiles ▸ hp.notLock
    · rcases List.mem_append.mp hm with hm | hm
      · exact hp'.mapped f ino' hm
      · obtain ⟨rfl, rfl⟩ := Prod.mk.inj (List.mem_singleton.mp hm)
        exact Function.update_self ..
  | @ready i lock mapped hi =>
    have hp := h.phase i
    rw [hi] at hp
    exact h.setPhase ⟨hp.fd, hp.files, hp.notLock, hp.mapped⟩ (by rw [hi]; rfl)
  | @fail i => exact h.close i
  | @drop i => exact h.close i
  | @crash i => exact h.close i

end Inv

/-! ### What a call has done before its flock -/

/-- The actor is in a call that has not reached its flock. -/
def Phase.beforeFlock : Phase → Bool
  | .loaded _ => true
  | .opened _ _ => true
  | _ => false

/-- Up to its flock, a call has touched no area file since it began. -/
def Untouched (history : List Event) (w : World) : Prop :=
  ∀ i, (w.phase i).beforeFlock = true → ∃ before since,
    Trace.SplitLast (· = Event.load i) history before (.load i) since ∧
      ∀ x ∈ since, ¬ x.Touches i

section Untouched

variable {w w' : World} {x : Event} {history : List Event}

theorem Step.phase_of_ne (h : Step ignoreCase w x w') {j : ℕ} (hj : j ≠ x.actor) :
    w'.phase j = w.phase j := by
  cases h with
  | load => exact World.setPhase_of_ne _ _ _ hj
  | openExisting => exact World.setPhase_of_ne _ _ _ hj
  | openNew => exact World.setPhase_of_ne _ _ _ hj
  | flock => exact World.setPhase_of_ne _ _ _ hj
  | flockBusy => exact World.close_of_ne _ _ hj
  | unlink => exact World.setPhase_of_ne _ _ _ hj
  | unlinkFails => exact World.setPhase_of_ne _ _ _ hj
  | create => exact World.setPhase_of_ne _ _ _ hj
  | ready => exact World.setPhase_of_ne _ _ _ hj
  | fail => exact World.close_of_ne _ _ hj
  | drop => exact World.close_of_ne _ _ hj
  | crash => exact World.close_of_ne _ _ hj

/-- An actor is before its flock when it has just begun its call, or when it was so already and opens the
lock file. -/
theorem Step.beforeFlock (h : Step ignoreCase w x w')
    (hp : (w'.phase x.actor).beforeFlock = true) :
    x = .load x.actor ∨ x = .openLock x.actor ∧ (w.phase x.actor).beforeFlock = true := by
  have hset : ∀ (i : ℕ) (p : Phase), ((w.setPhase i p).phase i).beforeFlock = p.beforeFlock :=
    fun i p => by rw [World.setPhase_self]
  have hclose : ∀ i, ((w.close i).phase i).beforeFlock = false := fun i => by
    rw [World.close_self]
    rfl
  cases h with
  | load => exact .inl rfl
  | @openExisting i _ _ hi => exact .inr ⟨rfl, by rw [Event.actor, hi]; rfl⟩
  | @openNew i _ _ hi => exact .inr ⟨rfl, by rw [Event.actor, hi]; rfl⟩
  | flock => exact absurd ((hset _ _).symm.trans hp) Bool.false_ne_true
  | flockBusy => exact absurd ((hclose _).symm.trans hp) Bool.false_ne_true
  | unlink => exact absurd ((hset _ _).symm.trans hp) Bool.false_ne_true
  | unlinkFails => exact absurd ((hset _ _).symm.trans hp) Bool.false_ne_true
  | create => exact absurd ((hset _ _).symm.trans hp) Bool.false_ne_true
  | ready => exact absurd ((hset _ _).symm.trans hp) Bool.false_ne_true
  | fail => exact absurd ((hclose _).symm.trans hp) Bool.false_ne_true
  | drop => exact absurd ((hclose _).symm.trans hp) Bool.false_ne_true
  | crash => exact absurd ((hclose _).symm.trans hp) Bool.false_ne_true

theorem Event.actor_of_touches {i : ℕ} (h : x.Touches i) : x.actor = i := by
  cases x <;> first | exact h | exact h.elim

theorem Untouched.step (h : Untouched history w) (hstep : Step ignoreCase w x w') :
    Untouched (history ++ [x]) w' := by
  intro i hi
  -- a step of another actor, or of this one before its flock, is no touch and no new call
  have hsnoc : (w.phase i).beforeFlock = true → x ≠ .load i → ¬ x.Touches i → ∃ before since,
      Trace.SplitLast (· = Event.load i) (history ++ [x]) before (.load i) since ∧
        ∀ y ∈ since, ¬ y.Touches i := by
    intro hi hload htouch
    obtain ⟨before, since, hsplit, hsince⟩ := h i hi
    refine ⟨before, since ++ [x], hsplit.snoc hload, fun y hy => ?_⟩
    rcases List.mem_append.mp hy with hy | hy
    · exact hsince y hy
    · rwa [List.mem_singleton.mp hy]
  by_cases hx : i = x.actor
  · subst hx
    rcases hstep.beforeFlock hi with hload | ⟨hopen, hbefore⟩
    · refine ⟨history, [], ?_, by simp⟩
      rw [hload]
      exact Trace.SplitLast.mk_snoc rfl
    · refine hsnoc hbefore ?_ ?_
      · rw [hopen]
        simp
      · rw [hopen]
        exact id
  · rw [hstep.phase_of_ne hx] at hi
    refine hsnoc hi ?_ fun ht => hx (Event.actor_of_touches ht).symm
    rintro rfl
    exact hx rfl

end Untouched

/-! ### Whole runs -/

theorem inv_of_run {history : List Event} {w : World}
    (h : Trace.Run Initial (Step ignoreCase) history w) :
    Inv ignoreCase w ∧ Untouched history w := by
  refine Trace.Run.invariant (I := fun H w => Inv ignoreCase w ∧ Untouched H w) ?_ ?_ h
  · rintro w ⟨hflocks, hidle⟩
    refine ⟨⟨fun i => ?_, fun l i => ?_⟩, fun i hi => ?_⟩
    · rw [hidle i]
      exact phaseOk_idle _
    · rw [hidle i, hflocks l]
      simp [Phase.lock]
    · rw [hidle i] at hi
      cases hi
  · rintro H w x w' ⟨hinv, hun⟩ hstep
    exact ⟨hinv.step hstep, hun.step hstep⟩

/-- The owner of a live instance can only let go of it. -/
theorem Step.dir_of_live {w w' : World} {x : Event} (h : Step ignoreCase w x w') {lock : ℕ}
    {mapped : List (Bytes × ℕ)} (hlive : w.phase x.actor = .live lock mapped) : w'.dir = w.dir := by
  have hother : ∀ {i : ℕ} {p : Phase}, w.phase i = p → w.phase i = .live lock mapped →
      p = .live lock mapped := fun hp hl => hp.symm.trans hl
  cases h with
  | load hi => cases hother hi hlive
  | openExisting hi => cases hother hi hlive
  | openNew hi => cases hother hi hlive
  | flock hi => cases hother hi hlive
  | flockBusy hi => cases hother hi hlive
  | unlink hi => cases hother hi hlive
  | unlinkFails hi => cases hother hi hlive
  | create hi => cases hother hi hlive
  | ready hi => cases hother hi hlive
  | fail => rfl
  | drop => rfl
  | crash => rfl

/-- **Single writer per directory.** In every run of any number of actors, from any directory: at most one
actor is past its successful flock and not yet gone; a step leaves the files of a live instance where they
are; and a call whose flock is refused has touched no area file since it began, and touches none then. -/
theorem single_writer {history : List Event} {w : World}
    (h : Trace.Run Initial (Step ignoreCase) history w) :
    (∀ i j l l', (w.phase i).lock = some l → (w.phase j).lock = some l' → i = j) ∧
    (∀ i lock mapped, w.phase i = .live lock mapped → ∀ file ino, (file, ino) ∈ mapped →
      w.dir file = some ino ∧ ∀ x w', Step ignoreCase w x w' → w'.dir file = some ino) ∧
    ∀ i w', Step ignoreCase w (.flockBusy i) w' → w'.dir = w.dir ∧ ∃ before since,
      Trace.SplitLast (· = Event.load i) history before (.load i) since ∧
        ∀ x ∈ since, ¬ x.Touches i := by
  obtain ⟨hinv, hun⟩ := inv_of_run h
  refine ⟨fun i j l l' hi hj => hinv.holder_unique hi hj, fun i lock mapped hi file ino hm => ?_,
    fun i w' hstep => ?_⟩
  · have hmap : (file, ino) ∈ (w.phase i).mapped := by rwa [hi]
    refine ⟨(hinv.phase i).mapped file ino hmap, fun x w' hstep => ?_⟩
    by_cases hx : i = x.actor
    · subst hx
      rw [hstep.dir_of_live hi]
      exact (hinv.phase _).mapped file ino hmap
    · have hp := (hinv.step hstep).phase i
      rw [hstep.phase_of_ne hx] at hp
      exact hp.mapped file ino hmap
  · cases hstep with
    | flockBusy hi => exact ⟨rfl, hun i (by rw [hi]; rfl)⟩

/-- A `property_info` without contexts. -/
def bareInfo : PropertyInfoArea := ⟨fun _ => 0, infoHeaderSize, le_rfl⟩

/-- Two actors on an empty directory: the first one is the writer, the second one is refused, and no step
moves the writer's file. -/
theorem single_writer_contest : ∃ history w,
    Trace.Run Initial (Step true) history w ∧
    w.phase 0 = .live 7 [(propertiesSerialName, 8)] ∧ Step true w (.flockBusy 1) (w.close 1) ∧
    ∀ x w', Step true w x w' → w'.dir propertiesSerialName = some 8 := by
  have hinfo : bareInfo.contextNames = .ok [] := by decide +kernel
  have hstart : Trace.Run Initial (Step true) [] ⟨fun _ => none, fun _ => none, fun _ => .idle⟩ :=
    .start ⟨fun _ => rfl, fun _ => rfl⟩
  have h1 := hstart.snoc (Step.load (i := 0) rfl hinfo)
  have h2 := h1.snoc (@Step.openNew true _ 0 _ 7 rfl rfl (by simp [World.setPhase]))
  have h3 := h2.snoc (Step.flock (i := 0) rfl rfl)
  have h4 := h3.snoc (Step.unlink (i := 0) rfl)
  have h5 := h4.snoc (@Step.create true _ 0 _ 8 _ _ _ rfl rfl (fun name => by
    simp only [World.setPhase, Function.update_apply]
    split_ifs <;> simp))
  have h6 := h5.snoc (Step.ready (i := 0) rfl)
  have h7 := h6.snoc (Step.load (i := 1) rfl hinfo)
  have h8 := h7.snoc (@Step.openExisting true _ 1 _ 7 rfl rfl)
  refine ⟨_, _, h8, rfl, Step.flockBusy (i := 1) (j := 0) rfl rfl, fun x w' hstep => ?_⟩
  exact ((single_writer h8).2.1 0 7 _ rfl propertiesSerialName 8 (by decide)).2 x w' hstep

end RsProperties.WriterLock
