import RsProperties.PropFiles.EntryLines
import RsProperties.PropFiles.LineSplit

/-!
# Loading is inlining

What a pass over a build.prop file means: the file's lines in order, each import line replaced by the lines of
its target. `inlineFile` is that text, for a budget without end, as a function of the bytes of the files. An
imported path contributes nothing when it does not expand, when it is nested too deep, when its target is on
the chain of imports already, or when the target cannot be opened; in the last two cases it still counts as
an attempt.

The loader itself threads a map, a set of visited files and a counter through its recursion. Its runs are
recorded in a log of the calls it makes and the files it opens (`tracedImpl`, which computes what
`load_properties_impl` computes). The pass agrees with the inlined text as long as its attempts fit the
budget, and is cut off otherwise.
-/

namespace RsProperties

open ByteMem StateExcept

/-! ### The inlined text -/

/-- The inlined text of a file: its accepted entries, and where a load is attempted. -/
inductive InlineEvent
  | attempt (filename : Bytes)
  | entry (key value : Str)

/-- A map updated by the entries of a text, the last one wins. -/
def applied (properties : PropertyMap) (events : List InlineEvent) : PropertyMap :=
  events.foldl (fun properties e => match e with
    | .attempt _ => properties
    | .entry key value => properties.insert key value) properties

/-- The load attempts of a text. -/
def attempts (events : List InlineEvent) : ℕ :=
  events.countP fun e => match e with
    | .attempt _ => true
    | .entry _ _ => false

/-- The text of a list of lines, with `file` for the text of an import: its path is expanded by the entries
so far. -/
def inlineLines (file : PropertyMap → Bytes → List InlineEvent) (filter : Option Bytes) :
    PropertyMap → List BoundedLine → List InlineEvent
  | _, [] => []
  | properties, line :: lines =>
    match lineAction filter line with
    | .skip => inlineLines file filter properties lines
    | .entry key value => .entry key value :: inlineLines file filter (properties.insert key value) lines
    | .importFile path =>
      match expandImportPath path properties with
      | none => inlineLines file filter properties lines
      | some expanded => file properties expanded ++
          inlineLines file filter (applied properties (file properties expanded)) lines

/-- The key a path has on the import chain. -/
def FileSystem.key (fs : FileSystem) (filename : Bytes) : Bytes := (fs.canonicalize filename).getD filename

/-- The inlined text of a file, with the import levels still allowed and the import chain it is reached on. -/
def inlineFile (fs : FileSystem) : ℕ → List Bytes → Bytes → Option Bytes → PropertyMap → List InlineEvent
  | 0, _, _, _, _ => []
  | levels + 1, chain, filename, filter, properties =>
    .attempt filename ::
      if chain.contains (fs.key filename) then []
      else
        match fs.openFile (fs.key filename) with
        | .error _ => []
        | .ok reader =>
          inlineLines (fun properties path =>
              inlineFile fs levels (fs.key filename :: chain) path none properties)
            (filter.filter fun f => !f.isEmpty) properties ((streamLines reader.bytes).map boundedLine)

section Text

variable (properties : PropertyMap) (events events' : List InlineEvent)

theorem applied_append : applied properties (events ++ events') = applied (applied properties events) events' :=
  List.foldl_append

theorem attempts_append : attempts (events ++ events') = attempts events + attempts events' :=
  List.countP_append

theorem applied_attempt (filename : Bytes) :
    applied properties (.attempt filename :: events) = applied properties events := rfl

theorem attempts_attempt (filename : Bytes) :
    attempts (.attempt filename :: events) = attempts events + 1 := by
  simp [attempts]

end Text

/-! ### The recorded pass -/

/-- What a pass does that its result does not show: it calls `load_properties_impl`, with the import chain of
the call beside the visited set it finds, and it opens files. -/
inductive LoadEvent
  | call (filename : Bytes) (chain visited : List Bytes)
  | opened (canonical : Bytes)

abbrev TraceM := EStateM Error (LoadState × List LoadEvent)

def tracedImport (load : Bytes → TraceM Unit) (path : Bytes) : TraceM Unit := fun s =>
  match expandImportPath path s.1.properties with
  | none => .ok () s
  | some expanded =>
    match load expanded s with
    | .ok _ s => .ok () s
    | .error (.limitExceeded msg) s => .error (.limitExceeded msg) s
    | .error _ s => .ok () s

def tracedLine (load : Bytes → TraceM Unit) (filter : Option Bytes) (line : BoundedLine) : TraceM Unit :=
  match lineAction filter line with
  | .skip => return ()
  | .importFile path => tracedImport load path
  | .entry key value => modify fun s =>
    ({ s.1 with properties := s.1.properties.insert key value }, s.2)

def tracedLines (load : Bytes → TraceM Unit) (filter : Option Bytes) : List BoundedLine → TraceM Unit
  | [] => return ()
  | line :: lines => do
    tracedLine load filter line
    tracedLines load filter lines

def tracedBody (fs : FileSystem) (load : Bytes → TraceM Unit) (filename canonical : Bytes)
    (filter : Option Bytes) : TraceM Unit := fun s =>
  let s := (s.1, s.2 ++ [.opened canonical])
  match fs.openFile canonical with
  | .error e => .error (.context s!"Failed to open \"{display filename}\"" (.io e)) s
  | .ok reader => tracedLines load (filter.filter fun f => !f.isEmpty) reader.lines s

/-- `load_properties_impl`, recording its calls with their import chains and the files it opens. -/
def tracedImpl (fs : FileSystem) : ℕ → List Bytes → Bytes → Option Bytes → TraceM Unit
  | 0, _, filename, _ => throw (.parse
      s!"import nesting deeper than {maxImportDepth} levels at \"{display filename}\"")
  | levels + 1, chain, filename, filter => fun (state, log) =>
    let log := log ++ [.call filename chain state.visited]
    let state := { state with loads := state.loads + 1 }
    if maxTotalLoads < state.loads then
      .error (.limitExceeded
        s!"more than {maxTotalLoads} file loads in one pass (import amplification) at \"{display filename}\"")
        (state, log)
    else
      let canonical := (fs.canonicalize filename).getD filename
      if state.visited.contains canonical then .ok () (state, log)
      else
        let load := fun path => tracedImpl fs levels (canonical :: chain) path none
        match tracedBody fs load filename canonical filter
            ({ state with visited := canonical :: state.visited }, log) with
        | .ok _ (state, log) => .ok () ({ state with visited := state.visited.erase canonical }, log)
        | .error e (state, log) =>
          .error e ({ state with visited := state.visited.erase canonical }, log)

/-- The result without the log. -/
def eraseLog : EStateM.Result Error (LoadState × List LoadEvent) Unit →
    EStateM.Result Error LoadState Unit
  | .ok a s => .ok a s.1
  | .error e s => .error e s.1

/-- Recording computes the same. -/
def Records (x : TraceM Unit) (y : LoadM Unit) : Prop := ∀ s, eraseLog (x s) = y s.1

theorem Records.bind {x x' : TraceM Unit} {y y' : LoadM Unit} (h : Records x y) (h' : Records x' y') :
    Records (x >>= fun _ => x') (y >>= fun _ => y') := fun s => by
  have hs := h s
  cases hx : x s with
  | ok a t =>
    rw [hx] at hs
    rw [bind_ok hx, bind_ok hs.symm]
    exact h' t
  | error e t =>
    rw [hx] at hs
    rw [bind_error hx, bind_error hs.symm]
    rfl

theorem records_import {load : Bytes → TraceM Unit} {load' : Bytes → LoadM Unit}
    (h : ∀ path, Records (load path) (load' path)) (path : Bytes) :
    Records (tracedImport load path) (importLine load' path) := fun s => by
  unfold tracedImport importLine
  cases expandImportPath path s.1.properties with
  | none => rfl
  | some expanded =>
    have hs := h expanded s
    dsimp only
    rw [← hs]
    cases load expanded s with
    | ok a t => rfl
    | error e t => cases e <;> rfl

theorem records_lines {load : Bytes → TraceM Unit} {load' : Bytes → LoadM Unit}
    (h : ∀ path, Records (load path) (load' path)) (filter : Option Bytes) (lines : List BoundedLine) :
    Records (tracedLines load filter lines) (loadLines load' filter lines) := by
  induction lines with
  | nil => exact fun s => rfl
  | cons line lines ih =>
    refine Records.bind ?_ ih
    rw [loadLine_eq]
    unfold tracedLine
    cases lineAction filter line with
    | skip => exact fun s => rfl
    | importFile path => exact records_import h path
    | entry key value => exact fun s => rfl

/-- **The recorded pass is the pass.** -/
theorem records_impl (fs : FileSystem) (levels : ℕ) (chain : List Bytes) (filename : Bytes)
    (filter : Option Bytes) :
    Records (tracedImpl fs levels chain filename filter) (loadPropertiesImpl fs levels filename filter) := by
  induction levels generalizing chain filename filter with
  | zero => exact fun s => rfl
  | succ levels ih =>
    rintro ⟨state, log⟩
    simp only [tracedImpl, loadPropertiesImpl, List.contains_iff_mem]
    split_ifs with hl hv
    · rfl
    · rfl
    generalize hc : (fs.canonicalize filename).getD filename = canonical
    unfold tracedBody loadPropertiesBody
    cases fs.openFile canonical with
    | error e => rfl
    | ok reader =>
      have hlines := records_lines (fun path => ih (canonical :: chain) path none)
        (filter.filter fun f => !f.isEmpty) reader.lines
        ({ state with loads := state.loads + 1, visited := canonical :: state.visited },
          log ++ [.call filename chain state.visited] ++ [.opened canonical])
      dsimp only at hlines ⊢
      rw [← hlines]
      generalize tracedLines _ _ _ _ = res
      cases res <;> rfl

/-! ### The pass and the text -/

/-- The files opened in a log. -/
def opens (log : List LoadEvent) : ℕ :=
  log.countP fun e => match e with
    | .call _ _ _ => false
    | .opened _ => true

/-- A pass has extended its log by calls that found their import chain in the visited set, and by at most
`count` opened files. -/
def PassLogged (log log' : List LoadEvent) (count : ℕ) : Prop :=
  ∃ new, log' = log ++ new ∧ (∀ filename chain visited, .call filename chain visited ∈ new →
    visited = chain) ∧ opens new ≤ count

theorem opens_append (log log' : List LoadEvent) : opens (log ++ log') = opens log + opens log' :=
  List.countP_append

theorem PassLogged.refl (log : List LoadEvent) : PassLogged log log 0 :=
  ⟨[], by simp, by simp, le_rfl⟩

theorem PassLogged.trans {log log' log'' : List LoadEvent} {m n : ℕ} (h : PassLogged log log' m)
    (h' : PassLogged log' log'' n) : PassLogged log log'' (m + n) := by
  obtain ⟨new, rfl, hcalls, hopens⟩ := h
  obtain ⟨new', rfl, hcalls', hopens'⟩ := h'
  refine ⟨new ++ new', List.append_assoc _ _ _, fun f c v hm => ?_, ?_⟩
  · rcases List.mem_append.mp hm with hm | hm
    · exact hcalls f c v hm
    · exact hcalls' f c v hm
  · rw [opens_append]
    omega

theorem PassLogged.mono {log log' : List LoadEvent} {m n : ℕ} (h : PassLogged log log' m) (hmn : m ≤ n) :
    PassLogged log log' n := by
  obtain ⟨new, heq, hcalls, hopens⟩ := h
  exact ⟨new, heq, hcalls, hopens.trans hmn⟩

theorem PassLogged.call (log : List LoadEvent) (filename : Bytes) (chain : List Bytes) :
    PassLogged log (log ++ [.call filename chain chain]) 0 := by
  refine ⟨_, rfl, fun f c v hm => ?_, le_rfl⟩
  obtain ⟨rfl, rfl, rfl⟩ : f = filename ∧ c = chain ∧ v = chain := by simpa using hm
  rfl

theorem PassLogged.opened (log : List LoadEvent) (canonical : Bytes) :
    PassLogged log (log ++ [.opened canonical]) 1 :=
  ⟨_, rfl, by simp, le_rfl⟩

section Pass

variable {n : ℕ} {chain : List Bytes} {properties : PropertyMap} {log : List LoadEvent}

/-- What a recorded call does from a map, a chain and a number of loads, against the text it stands for. A
call that fails for its own file has had its effect all the same. -/
inductive CallPass (n : ℕ) (chain : List Bytes) (properties : PropertyMap) (events : List InlineEvent)
    (log : List LoadEvent) : EStateM.Result Error (LoadState × List LoadEvent) Unit → Prop
  | done {log' : List LoadEvent} (hle : n + attempts events ≤ maxTotalLoads)
      (hlog : PassLogged log log' (attempts events)) : CallPass n chain properties events log
        (.ok () (⟨applied properties events, chain, n + attempts events⟩, log'))
  | failed {e : Error} {log' : List LoadEvent} (hle : n + attempts events ≤ maxTotalLoads)
      (hlog : PassLogged log log' (attempts events)) (he : ∀ msg, e ≠ .limitExceeded msg) :
      CallPass n chain properties events log
        (.error e (⟨applied properties events, chain, n + attempts events⟩, log'))
  | limit {msg : String} {properties' : PropertyMap} {log' : List LoadEvent}
      (hgt : maxTotalLoads < n + attempts events) (hlog : PassLogged log log' (maxTotalLoads - n)) :
      CallPass n chain properties events log
        (.error (.limitExceeded msg) (⟨properties', chain, maxTotalLoads + 1⟩, log'))

/-- What the lines of a file do: no error of an import gets through but the budget's. -/
inductive LinesPass (n : ℕ) (chain : List Bytes) (properties : PropertyMap) (events : List InlineEvent)
    (log : List LoadEvent) : EStateM.Result Error (LoadState × List LoadEvent) Unit → Prop
  | done {log' : List LoadEvent} (hle : n + attempts events ≤ maxTotalLoads)
      (hlog : PassLogged log log' (attempts events)) : LinesPass n chain properties events log
        (.ok () (⟨applied properties events, chain, n + attempts events⟩, log'))
  | limit {msg : String} {properties' : PropertyMap} {log' : List LoadEvent}
      (hgt : maxTotalLoads < n + attempts events) (hlog : PassLogged log log' (maxTotalLoads - n)) :
      LinesPass n chain properties events log
        (.error (.limitExceeded msg) (⟨properties', chain, maxTotalLoads + 1⟩, log'))

/-- Lines behind a text that has been applied. -/
theorem LinesPass.after {events' : List InlineEvent} {log' : List LoadEvent} (events : List InlineEvent)
    {res : EStateM.Result Error (LoadState × List LoadEvent) Unit}
    (hle : n + attempts events ≤ maxTotalLoads) (hlog : PassLogged log log' (attempts events))
    (h : LinesPass (n + attempts events) chain (applied properties events) events' log' res) :
    LinesPass n chain properties (events ++ events') log res := by
  have hattempts := attempts_append events events'
  cases h with
  | done hle' hlog' =>
    rw [← applied_append, Nat.add_assoc, ← hattempts]
    exact .done (by omega) (hattempts ▸ hlog.trans hlog')
  | limit hgt hlog' => exact .limit (by omega) ((hlog.trans hlog').mono (by omega))

/-- **The lines of a file**, when every import is a call that does what its text says. -/
theorem tracedLines_spec {load : Bytes → TraceM Unit} {file : PropertyMap → Bytes → List InlineEvent}
    (hload : ∀ {n : ℕ} {properties : PropertyMap} {log : List LoadEvent} (path : Bytes),
      n ≤ maxTotalLoads →
      CallPass n chain properties (file properties path) log (load path (⟨properties, chain, n⟩, log)))
    (filter : Option Bytes) (lines : List BoundedLine) (hn : n ≤ maxTotalLoads) :
    LinesPass n chain properties (inlineLines file filter properties lines) log
      (tracedLines load filter lines (⟨properties, chain, n⟩, log)) := by
  induction lines generalizing n properties log with
  | nil => exact .done hn (.refl log)
  | cons line lines ih =>
    have hrun : ∀ (s' : LoadState × List LoadEvent),
        tracedLine load filter line (⟨properties, chain, n⟩, log) = .ok () s' →
        tracedLines load filter (line :: lines) (⟨properties, chain, n⟩, log) =
          tracedLines load filter lines s' := fun s' h => bind_ok h
    unfold inlineLines
    cases ha : lineAction filter line with
    | skip =>
      rw [hrun _ (by rw [tracedLine, ha]; rfl)]
      exact ih hn
    | entry key value =>
      rw [hrun (⟨properties.insert key value, chain, n⟩, log) (by rw [tracedLine, ha]; rfl)]
      exact LinesPass.after [.entry key value] hn (.refl log) (ih hn)
    | importFile path =>
      dsimp only
      cases hexp : expandImportPath path properties with
      | none =>
        rw [hrun (⟨properties, chain, n⟩, log) (by
          rw [tracedLine, ha]
          show tracedImport load path _ = _
          rw [tracedImport]
          dsimp only
          rw [hexp])]
        exact ih hn
      | some expanded =>
        have hcall := @hload n properties log expanded hn
        have himport : tracedLine load filter line (⟨properties, chain, n⟩, log) =
            match load expanded (⟨properties, chain, n⟩, log) with
            | .ok _ s => .ok () s
            | .error (.limitExceeded msg) s => .error (.limitExceeded msg) s
            | .error _ s => .ok () s := by
          rw [tracedLine, ha]
          show tracedImport load path _ = _
          rw [tracedImport]
          dsimp only
          rw [hexp]
        generalize load expanded (⟨properties, chain, n⟩, log) = res at hcall himport
        dsimp only
        cases hcall with
        | done hle hlog =>
          rw [hrun _ himport]
          exact .after _ hle hlog (ih hle)
        | @failed e log' hle hlog he =>
          have himport' : tracedLine load filter line (⟨properties, chain, n⟩, log) =
              .ok () (⟨applied properties (file properties expanded), chain,
                n + attempts (file properties expanded)⟩, log') := by
            rw [himport]
            cases e with
            | limitExceeded msg => exact absurd rfl (he msg)
            | _ => rfl
          rw [hrun _ himport']
          exact .after _ hle hlog (ih hle)
        | limit hgt hlog =>
          have hfail := bind_error (f := fun _ => tracedLines load filter lines) himport
          rw [show tracedLines load filter (line :: lines) = _ >>= _ from rfl, hfail]
          refine .limit ?_ hlog
          rw [attempts_append]
          omega

/-- **A call of the loader** does what the inlined text of its file says, cut off at the budget. -/
theorem tracedImpl_spec (fs : FileSystem) (levels : ℕ) (filename : Bytes) (filter : Option Bytes)
    (hn : n ≤ maxTotalLoads) :
    CallPass n chain properties (inlineFile fs levels chain filename filter properties) log
      (tracedImpl fs levels chain filename filter (⟨properties, chain, n⟩, log)) := by
  induction levels generalizing chain filename filter n properties log with
  | zero => exact .failed hn (.refl log) nofun
  | succ levels ih =>
    have hcall := PassLogged.call log filename chain
    simp only [tracedImpl, List.contains_iff_mem]
    unfold inlineFile
    by_cases hl : maxTotalLoads < n + 1
    · rw [if_pos hl]
      obtain rfl : n = maxTotalLoads := by omega
      refine .limit ?_ (hcall.mono (Nat.zero_le _))
      rw [attempts_attempt]
      omega
    rw [if_neg hl]
    have hkey : (fs.canonicalize filename).getD filename = fs.key filename := rfl
    rw [hkey]
    generalize fs.key filename = canonical
    by_cases hv : canonical ∈ chain
    · rw [if_pos hv, if_pos (List.contains_iff_mem.mpr hv)]
      exact .done (by simpa [attempts] using by omega) (hcall.mono (Nat.zero_le _))
    rw [if_neg hv, if_neg (mt List.contains_iff_mem.mp hv)]
    unfold tracedBody
    have hopened := hcall.trans (PassLogged.opened _ canonical)
    cases fs.openFile canonical with
    | error e =>
      dsimp only
      rw [List.erase_cons_head]
      exact .failed (by simpa [attempts] using by omega) hopened nofun
    | ok reader =>
      dsimp only
      rw [← Reader.lines_eq]
      have hlines := @tracedLines_spec (n + 1) (canonical :: chain) properties
        (log ++ [.call filename chain chain] ++ [.opened canonical])
        (fun path => tracedImpl fs levels (canonical :: chain) path none)
        (fun properties path => inlineFile fs levels (canonical :: chain) path none properties)
        (fun path hn => ih path none hn) (filter.filter fun f => !f.isEmpty) reader.lines (by omega)
      generalize inlineLines _ _ _ _ = events at hlines ⊢
      generalize tracedLines _ _ _ _ = res at hlines ⊢
      have hattempts := attempts_attempt events filename
      cases hlines with
      | done hle hlog =>
        dsimp only
        rw [List.erase_cons_head, ← applied_attempt properties events filename,
          show n + 1 + attempts events = n + attempts (.attempt filename :: events) by omega]
        exact .done (by omega) ((hopened.trans hlog).mono (by omega))
      | limit hgt hlog =>
        dsimp only
        rw [List.erase_cons_head]
        exact .limit (by omega) ((hopened.trans hlog).mono (by omega))

end Pass

/-! ### The visited set -/

/-- Whether it succeeds or fails, the operation leaves the visited set as it found it. -/
def KeepsVisited (x : LoadM Unit) : Prop := ∀ state state' : LoadState,
  (x state = .ok () state' ∨ ∃ e, x state = .error e state') → state'.visited = state.visited

theorem KeepsVisited.bind {x y : LoadM Unit} (hx : KeepsVisited x) (hy : KeepsVisited y) :
    KeepsVisited (x >>= fun _ => y) := by
  intro state state' h
  cases hr : x state with
  | ok a t =>
    rw [bind_ok hr] at h
    exact (hy t state' h).trans (hx state t (.inl hr))
  | error e t =>
    rw [bind_error hr] at h
    rcases h with h | ⟨e', h⟩
    · cases h
    · cases h
      exact hx state _ (.inr ⟨e, hr⟩)

theorem keepsVisited_import {load : Bytes → LoadM Unit} (h : ∀ path, KeepsVisited (load path))
    (path : Bytes) : KeepsVisited (importLine load path) := by
  intro state state' hr
  unfold importLine at hr
  cases hexp : expandImportPath path state.properties with
  | none =>
    rw [hexp] at hr
    rcases hr with hr | ⟨e, hr⟩ <;> cases hr
    rfl
  | some expanded =>
    rw [hexp] at hr
    dsimp only at hr
    cases hl : load expanded state with
    | ok a t =>
      rw [hl] at hr
      rcases hr with hr | ⟨e, hr⟩ <;> cases hr
      exact h expanded state _ (.inl hl)
    | error e t =>
      rw [hl] at hr
      have hkept := h expanded state t (.inr ⟨e, hl⟩)
      cases e <;> rcases hr with hr | ⟨e', hr⟩ <;> cases hr <;> exact hkept

theorem keepsVisited_lines {load : Bytes → LoadM Unit} (h : ∀ path, KeepsVisited (load path))
    (filter : Option Bytes) (lines : List BoundedLine) : KeepsVisited (loadLines load filter lines) := by
  induction lines with
  | nil =>
    rintro state state' (hr | ⟨e, hr⟩) <;> cases hr
    rfl
  | cons line lines ih =>
    refine KeepsVisited.bind ?_ ih
    rw [loadLine_eq]
    cases lineAction filter line with
    | importFile path => exact keepsVisited_import h path
    | skip =>
      rintro state state' (hr | ⟨e, hr⟩) <;> cases hr
      rfl
    | entry key value =>
      rintro state state' (hr | ⟨e, hr⟩) <;> cases hr
      rfl

/-- **Every call of the loader restores the visited set**, on success and on error. -/
theorem keepsVisited_impl (fs : FileSystem) (levels : ℕ) (filename : Bytes) (filter : Option Bytes) :
    KeepsVisited (loadPropertiesImpl fs levels filename filter) := by
  induction levels generalizing filename filter with
  | zero =>
    rintro state state' (hr | ⟨e, hr⟩) <;> cases hr
    rfl
  | succ levels ih =>
    intro state state' hr
    simp only [loadPropertiesImpl] at hr
    by_cases hl : maxTotalLoads < state.loads + 1
    · rw [if_pos hl] at hr
      rcases hr with hr | ⟨e, hr⟩ <;> cases hr
      rfl
    rw [if_neg hl] at hr
    generalize (fs.canonicalize filename).getD filename = canonical at hr
    by_cases hv : canonical ∈ state.visited
    · rw [if_pos hv] at hr
      rcases hr with hr | ⟨e, hr⟩ <;> cases hr
      rfl
    rw [if_neg hv] at hr
    have hbody : KeepsVisited (loadPropertiesBody fs
        (fun path => loadPropertiesImpl fs levels path none) filename canonical filter) := by
      unfold loadPropertiesBody
      cases fs.openFile canonical with
      | error e =>
        rintro state state' (hr | ⟨e, hr⟩) <;> cases hr
        rfl
      | ok reader => exact keepsVisited_lines (fun path => ih path none) _ _
    generalize hb : loadPropertiesBody fs (fun path => loadPropertiesImpl fs levels path none) filename
      canonical filter ⟨state.properties, canonical :: state.visited, state.loads + 1⟩ = res at hr
    cases res with
    | ok a t =>
      rcases hr with hr | ⟨e, hr⟩ <;> cases hr
      rw [hbody _ _ (.inl hb), List.erase_cons_head]
    | error e t =>
      rcases hr with hr | ⟨e', hr⟩ <;> cases hr
      rw [hbody _ _ (.inr ⟨e, hb⟩), List.erase_cons_head]

/-! ### Whole passes -/

/-- The log of a pass over a file. -/
def passLog (fs : FileSystem) (filename : Bytes) (filter : Option Bytes) (properties : PropertyMap) :
    List LoadEvent :=
  match tracedImpl fs (maxImportDepth + 1) [] filename filter (⟨properties, [], 0⟩, []) with
  | .ok _ s => s.2
  | .error _ s => s.2

/-- The inlined text of a file. -/
def inlined (fs : FileSystem) (filename : Bytes) (filter : Option Bytes) (properties : PropertyMap) :
    List InlineEvent := inlineFile fs (maxImportDepth + 1) [] filename filter properties

/-- The result of a pass, from that of its recorded version. -/
theorem loadPropertiesFromFile_eq (fs : FileSystem) (filename : Bytes) (filter : Option Bytes)
    (properties : PropertyMap) :
    loadPropertiesFromFile fs filename filter properties =
      match tracedImpl fs (maxImportDepth + 1) [] filename filter (⟨properties, [], 0⟩, []) with
      | .ok _ s => .ok () s.1.properties
      | .error e s => .error e s.1.properties := by
  have hrec := records_impl fs (maxImportDepth + 1) [] filename filter (⟨properties, [], 0⟩, [])
  unfold loadPropertiesFromFile
  dsimp only at hrec ⊢
  rw [← hrec]
  cases tracedImpl fs (maxImportDepth + 1) [] filename filter (⟨properties, [], 0⟩, []) <;> rfl

/-- A root file that can be opened fails only for the budget. -/
theorem tracedImpl_root_failed {fs : FileSystem} {filename : Bytes} {filter : Option Bytes}
    {properties : PropertyMap} {reader : Reader} (hroot : fs.openFile (fs.key filename) = .ok reader)
    {levels : ℕ} {e : Error} {s : LoadState × List LoadEvent}
    (h : tracedImpl fs (levels + 1) [] filename filter (⟨properties, [], 0⟩, []) = .error e s) :
    ∃ msg, e = .limitExceeded msg := by
  simp only [tracedImpl, Nat.zero_add, List.contains_nil, Bool.false_eq_true, if_false] at h
  rw [if_neg (by decide)] at h
  have hkey : (fs.canonicalize filename).getD filename = fs.key filename := rfl
  rw [hkey] at h
  unfold tracedBody at h
  rw [hroot] at h
  dsimp only at h
  have hlines := @tracedLines_spec 1 [fs.key filename] properties
    ([] ++ [.call filename [] []] ++ [.opened (fs.key filename)])
    (fun path => tracedImpl fs levels [fs.key filename] path none)
    (fun properties path => inlineFile fs levels [fs.key filename] path none properties)
    (fun path hn => tracedImpl_spec fs levels path none hn) (filter.filter fun f => !f.isEmpty)
    reader.lines (by decide)
  generalize tracedLines _ _ _ _ = res at hlines h
  cases hlines with
  | done => cases h
  | limit =>
    cases h
    exact ⟨_, rfl⟩

/-- **Loading equals inlining the imports.** For every file system, root file, filter and initial map: the
recorded pass is the pass, which is finite and opens at most `maxTotalLoads` files; every call finds exactly
its import chain in the visited set, and every call of the loader, in any state, restores the visited set;
the pass fails with `LimitExceeded` exactly when its inlined text has more than `maxTotalLoads` load attempts;
and otherwise, if the root file can be opened, it succeeds with the initial map updated by the entries of the
inlined text in order. The entries and the imports of the text are those of the grammar of lines. -/
theorem loadPropertiesFromFile_inlines (fs : FileSystem) (filename : Bytes) (filter : Option Bytes)
    (properties : PropertyMap) :
    eraseLog (tracedImpl fs (maxImportDepth + 1) [] filename filter (⟨properties, [], 0⟩, [])) =
      loadPropertiesImpl fs (maxImportDepth + 1) filename filter ⟨properties, [], 0⟩ ∧
    opens (passLog fs filename filter properties) ≤ maxTotalLoads ∧
    (∀ path chain visited, .call path chain visited ∈ passLog fs filename filter properties →
      visited = chain) ∧
    (∀ levels path filter, KeepsVisited (loadPropertiesImpl fs levels path filter)) ∧
    ((∃ msg properties', loadPropertiesFromFile fs filename filter properties =
        .error (.limitExceeded msg) properties') ↔
      maxTotalLoads < attempts (inlined fs filename filter properties)) ∧
    (attempts (inlined fs filename filter properties) ≤ maxTotalLoads →
      (∃ reader, fs.openFile (fs.key filename) = .ok reader) →
      loadPropertiesFromFile fs filename filter properties =
        .ok () (applied properties (inlined fs filename filter properties))) ∧
    (∀ filter line key value, lineAction filter line = .entry key value ↔
      SetsKey filter line key value) ∧
    (∀ filter line path, lineAction filter line = .importFile path ↔
      ∃ text rest, Says line text ∧ Imports filter text rest ∧ path = rest.trim.bytes) := by
  refine ⟨records_impl fs (maxImportDepth + 1) [] filename filter _, ?_⟩
  have hlines : (∀ filter line key value, lineAction filter line = .entry key value ↔
        SetsKey filter line key value) ∧
      ∀ filter line path, lineAction filter line = .importFile path ↔
        ∃ text rest, Says line text ∧ Imports filter text rest ∧ path = rest.trim.bytes :=
    ⟨fun _ _ _ _ => lineAction_eq_entry, fun _ _ _ => lineAction_eq_importFile⟩
  have hspec := @tracedImpl_spec 0 [] properties [] fs (maxImportDepth + 1) filename filter (by decide)
  have hres := loadPropertiesFromFile_eq fs filename filter properties
  have hroot : ∀ reader, fs.openFile (fs.key filename) = .ok reader → ∀ e s,
      tracedImpl fs (maxImportDepth + 1) [] filename filter (⟨properties, [], 0⟩, []) = .error e s →
      ∃ msg, e = .limitExceeded msg := fun _ hr _ _ h => tracedImpl_root_failed hr h
  unfold passLog inlined
  rw [hres]
  generalize tracedImpl fs (maxImportDepth + 1) [] filename filter (⟨properties, [], 0⟩, []) = res
    at hspec hroot
  generalize inlineFile fs (maxImportDepth + 1) [] filename filter properties = events at hspec ⊢
  have hlogged : ∀ {log' : List LoadEvent} {count : ℕ}, count ≤ maxTotalLoads → PassLogged [] log' count →
      opens log' ≤ maxTotalLoads ∧
      ∀ path chain visited, .call path chain visited ∈ log' → visited = chain := by
    rintro log' count hle ⟨new, rfl, hcalls, hopens⟩
    exact ⟨hopens.trans hle, hcalls⟩
  cases hspec with
  | done hle hlog =>
    obtain ⟨h1, h2⟩ := hlogged (by omega) hlog
    exact ⟨h1, h2, fun levels path filter => keepsVisited_impl fs levels path filter,
      ⟨nofun, fun hgt => by omega⟩, fun _ _ => rfl, hlines⟩
  | failed hle hlog he =>
    obtain ⟨h1, h2⟩ := hlogged (by omega) hlog
    refine ⟨h1, h2, fun levels path filter => keepsVisited_impl fs levels path filter,
      ⟨?_, fun hgt => by omega⟩, ?_, hlines⟩
    · rintro ⟨msg, properties', h⟩
      cases h
      exact absurd rfl (he msg)
    · rintro - ⟨reader, hr⟩
      obtain ⟨msg, rfl⟩ := hroot reader hr _ _ rfl
      exact absurd rfl (he msg)
  | limit hgt hlog =>
    obtain ⟨h1, h2⟩ := hlogged (Nat.sub_le _ _) hlog
    exact ⟨h1, h2, fun levels path filter => keepsVisited_impl fs levels path filter,
      ⟨fun _ => by omega, fun _ => ⟨_, _, rfl⟩⟩, fun hle _ => by omega, hlines⟩

/-- A file with a comment, an import under a key set above it, a key set twice and a reserved key. -/
def overlayFiles : FileSystem where
  canonicalize := some
  openFile := fun path =>
    if path = ascii "root" then .ok (.ofBytes
      (ascii "# base\nname = over\nkey=1\nimport $\x7bname\x7dlay\nimport missing\nctl.start=x\nlast=a=b\n"))
    else if path = ascii "overlay" then .ok (.ofBytes (ascii "key=2\n=empty\nimport root\n"))
    else .error "No such file or directory (os error 2)"

-- the overlay overrides the key, and what comes after a missing import is loaded
example : (match loadPropertiesFromFile overlayFiles (ascii "root") none .empty with
    | .ok _ properties => properties.entries.map fun e => (e.1.bytes, e.2.bytes)
    | .error _ _ => []) =
    [(ascii "name", ascii "over"), (ascii "key", ascii "2"), (ascii "last", ascii "a=b")] := by
  decide +kernel

end RsProperties
