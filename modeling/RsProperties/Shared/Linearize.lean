import RsProperties.Shared.Progress

/-!
# What the users of a shared area see

Gets and sets as their callers see them. A get beside the writer returns what an undisturbed one would have
returned at some moment while it ran (`get_linearizes`), and whatever the writer has left behind it does not
keep a get from its end (`get_completes`). Of all the stores of the writer only two ever change what a get
returns, the link to a new entry and the clean serial of an update (`set_takes_effect`), so the value of a
name is the one of the last completed update of its entry, or the one it was added with
(`last_write_wins`).
-/

namespace RsProperties

open ByteMem StateExcept PropertyAreaMap PropertyInfo Process Publish
open Seqlock (IsShort)

namespace Shared

variable {H L : List Event} {c c' : Contents} {s s' s₀ s₁ s₂ s₃ : State} {x : Event} {i off : ℕ}
  {name : Bytes} {r : Except Error Str}

/-! ### Gets -/

/-- A get from its call in `s₁` to its return in `s₃`; the run from `s₀` to `s₂` lies between. -/
structure Get (H L : List Event) (i : ℕ) (name : Bytes) (r : Except Error Str)
    (s₁ s₀ s₂ s₃ : State) : Prop where
  run : Run H s₁
  begins : Step s₁ (.get i name) s₀
  running : RunFrom s₀ L s₂
  busy : ∀ name r, .got i name r ∉ L
  returns : Step s₂ (.got i name r) s₃

theorem Step.got_inv (hs : Step s (.got i name r) s') : s.reader i = .done name r := by
  generalize hx : Event.got i name r = x at hs
  cases hs with
  | got hr =>
    cases hx
    exact hr
  | write =>
    cases hw : (Seqlock.writerStep s.mem s.updating).2.2 <;> rw [hw] at hx <;> cases hx
  | @read j name' rd hr =>
    rcases readStep_event s.mem j name' rd with he | ⟨_, he⟩ | ⟨_, he⟩ <;> rw [he] at hx <;> cases hx
  | _ => cases hx

theorem Step.get_inv (hs : Step s (.get i name) s') : s.reader i = .idle ∧
    s' = s.setReader i (.finding name (Publish.find readerMap name).run) := by
  generalize hx : Event.get i name = x at hs
  cases hs with
  | get hr =>
    cases hx
    exact ⟨hr, rfl⟩
  | write =>
    cases hw : (Seqlock.writerStep s.mem s.updating).2.2 <;> rw [hw] at hx <;> cases hx
  | @read j name' rd hr =>
    rcases readStep_event s.mem j name' rd with he | ⟨_, he⟩ | ⟨_, he⟩ <;> rw [he] at hx <;> cases hx
  | _ => cases hx

/-- A get has the result of some moment while it ran. -/
theorem Get.moment (h : Get H L i name r s₁ s₀ s₂ s₃) (hq : Quick i L) : Moment s₀ L s₂ name r := by
  obtain ⟨c₁, hw₁⟩ := h.run.world
  obtain ⟨c₀, hw₀, -⟩ := hw₁.step h.begins
  obtain ⟨-, rfl⟩ := h.begins.get_inv
  obtain ⟨c₂, -, -, hok⟩ := getOk_run hw₀ setReader_self h.running h.busy
  rw [h.returns.got_inv] at hok
  exact hok.2 hq

/-! ### Schedules -/

/-- What may happen next: a call of the writer or of a reader, or their next access. -/
inductive Turn
  | add (name value : Str)
  | update (name : Bytes) (value : Str)
  | get (i : ℕ) (name : Bytes)
  | writer
  | reader (i : ℕ)

/-- The step of a turn, if it is one. -/
def State.advance (s : State) : Turn → Option (State × Event)
  | .add name value =>
    if s.adding.isNone = true ∧ s.updating = .idle ∧ 0 ∉ value.bytes then
      some ({ s with
        adding := some ⟨name.bytes, value.bytes,
          (Publish.add writerMap name.bytes value.bytes).run⟩ }, .add name.bytes value.bytes)
    else none
  | .update name value =>
    match (writerMap.withData s.mem).find name with
    | .error _ => none
    | .ok off =>
      if s.adding.isNone = true ∧ s.updating = .idle ∧ validateShortValueLen value.bytes = .ok () then
        some ({ s with updating := .check off value.bytes }, .update off value.bytes)
      else none
  | .get i name =>
    match s.reader i with
    | .idle => some (s.setReader i (.finding name (Publish.find readerMap name).run), .get i name)
    | _ => none
  | .writer =>
    match s.adding with
    | some ⟨name, value, .perform o next⟩ =>
      some ({ s with mem := (o.act s.mem).2, adding := some ⟨name, value, next (o.act s.mem).1⟩ }, .tau)
    | some ⟨name, value, .done r⟩ => some ({ s with adding := none }, .added name value r)
    | none =>
      if s.updating = .idle then none
      else some ({ s with
        mem := (Seqlock.writerStep s.mem s.updating).1
        updating := (Seqlock.writerStep s.mem s.updating).2.1 },
        ofUpdate (Seqlock.writerStep s.mem s.updating).2.2)
  | .reader i =>
    match s.reader i with
    | .idle => none
    | .finding name (.perform o next) =>
      some (({ s with mem := (o.act s.mem).2 } : State).setReader i
        (.finding name (next (o.act s.mem).1)), .tau)
    | .finding name (.done r) => some (s.setReader i (afterFind name r), .tau)
    | .reading name rd => some (s.setReader i (readStep s.mem i name rd).1, (readStep s.mem i name rd).2)
    | .done name r => some (s.setReader i .idle, .got i name r)

/-- The state and the history after some turns. -/
def State.replay (s : State) : List Turn → Option (State × List Event)
  | [] => some (s, [])
  | turn :: turns =>
    match s.advance turn with
    | none => none
    | some (s', x) => (s'.replay turns).map fun r => (r.1, x :: r.2)

theorem Step.advance {turn : Turn} (h : s.advance turn = some (s', x)) : Step s x s' := by
  cases turn with
  | add name value =>
    simp only [State.advance] at h
    split_ifs at h with hc
    cases h
    exact .add (Option.isNone_iff_eq_none.mp hc.1) hc.2.1 hc.2.2
  | update name value =>
    simp only [State.advance] at h
    split at h
    · cases h
    · rename_i off hf
      split_ifs at h with hc
      cases h
      exact .update (Option.isNone_iff_eq_none.mp hc.1) hc.2.1 hf hc.2.2
  | get i name =>
    simp only [State.advance] at h
    split at h
    · cases h
      exact .get (by assumption) name
    · cases h
  | writer =>
    simp only [State.advance] at h
    split at h
    · cases h
      exact .store (by assumption)
    · cases h
      exact .added (by assumption)
    · split_ifs at h with hu
      cases h
      exact .write hu
  | reader i =>
    simp only [State.advance] at h
    split at h
    · cases h
    · cases h
      exact .look (by assumption)
    · cases h
      exact .found (by assumption)
    · cases h
      exact .read (by assumption)
    · cases h
      exact .got (by assumption)

/-- A schedule is a run. -/
theorem run_replay {init : State → Prop} {turns : List Turn} (h : Trace.Run init Step H s)
    (hr : s.replay turns = some (s', L)) : Trace.Run init Step (H ++ L) s' := by
  induction turns generalizing H L s with
  | nil =>
    obtain ⟨rfl, rfl⟩ := Prod.mk.inj (Option.some.inj hr)
    rwa [List.append_nil]
  | cons turn turns ih =>
    rw [State.replay] at hr
    split at hr
    · cases hr
    · rename_i t x hadv
      obtain ⟨⟨t', L'⟩, hr', heq⟩ := Option.map_eq_some_iff.mp hr
      obtain ⟨rfl, rfl⟩ := Prod.mk.inj heq
      have hrun := ih (h.snoc (.advance hadv)) hr'
      simpa using hrun

theorem RunOf.runFrom (h : RunOf i s L s') : RunFrom s L s' ∧ ∀ x ∈ L, Inner i x := by
  induction h with
  | start hs => exact ⟨.start hs, by simp⟩
  | snoc _ hs ih =>
    refine ⟨ih.1.snoc hs.1, fun y hy => ?_⟩
    rcases List.mem_append.mp hy with hy | hy
    · exact ih.2 y hy
    · exact List.mem_singleton.mp hy ▸ hs.2.1

/-- A get during which little happens is quick. -/
theorem quick_of_length (h : L.length < 2 ^ 15) : Quick i L := by
  rintro L₁ off L₂ L₃ rfl -
  refine lt_of_le_of_lt List.countP_le_length (lt_of_le_of_lt ?_ h)
  simp only [List.length_append, List.length_cons]
  omega

/-- **Gets are linearizable.** If fewer than `2 ^ 15` updates of an entry fall into one iteration of the
read, a get returns, or fails with, what an undisturbed get would have returned at some moment while it ran,
and the only errors are that the name is absent or has an empty segment. -/
theorem get_linearizes (h : Get H L i name r s₁ s₀ s₂ s₃) (hq : Quick i L) :
    (∃ L₁ L₂ t, L = L₁ ++ L₂ ∧ RunFrom s₀ L₁ t ∧ RunFrom t L₂ s₂ ∧ r = getAlone t.mem name) ∧
    ∀ e, r = .error e → e.isNotFound = true ∨
      [] ∈ splitDot name ∧ e = .parse s!"Invalid property name: {display name}" := by
  obtain ⟨L₁, L₂, t, ct, hL, h₁, h₂, hw, hr⟩ := h.moment hq
  refine ⟨⟨L₁, L₂, t, hL, h₁, h₂, hr.unique ct.wf (hw.getAlone name)⟩, fun e he => ?_⟩
  rw [he] at hr
  exact (ct.wf.find_error hr).2

/-- A file `new_rw` has just created, with nobody under way. -/
private def fresh : State := ⟨newRw.mmap.data, none, .idle, fun _ => .idle⟩

private theorem run_fresh : Run [] fresh := .start ⟨rfl, rfl, rfl, fun _ => rfl⟩

/-- The `add` of `a` with the value `x`. -/
private def addA : List Turn :=
  .add ⟨ascii "a", by decide⟩ ⟨ascii "x", by decide⟩ :: List.replicate 25 .writer

/-- The beginning of an `update` of `a` to `uv`, which has eleven accesses. -/
private def updateA (n : ℕ) : List Turn :=
  .update (ascii "a") ⟨ascii "uv", by decide⟩ :: List.replicate n .writer

/-- The beginning of an `add` of `b`. -/
private def addB : List Turn :=
  .add ⟨ascii "b", by decide⟩ ⟨ascii "w", by decide⟩ :: List.replicate 20 .writer

/-- A get of `a` that has read the old serial and a byte when the value is rewritten, and goes on in the
middle of the `add` of `b`. -/
private def getTurns : List Turn :=
  [List.replicate 10 (.reader 0), updateA 11, addB, List.replicate 8 (.reader 0)].flatten

private def getEvents : List Event :=
  [List.replicate 8 .tau, [.load 0 136, .tau, .update 136 (ascii "uv")], List.replicate 10 .tau,
    [.commit 136 (ascii "uv"), .add (ascii "b") (ascii "w")], List.replicate 23 .tau,
    [.load 0 136, .tau, .tau, .tau, .agreed 0 136]].flatten

theorem get_linearizes_overtaken : ∃ H s₁ s₀ s₂ s₃,
    Get H getEvents 0 (ascii "a") (.ok ⟨ascii "uv", by decide⟩) s₁ s₀ s₂ s₃ ∧
    getAlone s₁.mem (ascii "a") = .ok ⟨ascii "x", by decide⟩ ∧
    ∃ L₁ t, L₁ <+: getEvents ∧ RunFrom s₀ L₁ t ∧
      getAlone t.mem (ascii "a") = .ok ⟨ascii "uv", by decide⟩ := by
  have hcheck : ((fresh.replay addA).bind fun r => (r.1.advance (.get 0 (ascii "a"))).bind fun g =>
      (g.1.replay getTurns).bind fun q => (q.1.advance (.reader 0)).map fun e =>
        (getAlone r.1.mem (ascii "a"), g.2, q.2, e.2)) =
      some (.ok ⟨ascii "x", by decide⟩, .get 0 (ascii "a"), getEvents,
        .got 0 (ascii "a") (.ok ⟨ascii "uv", by decide⟩)) := by
    decide +kernel
  obtain ⟨⟨s₁, H⟩, h₁, hcheck⟩ := Option.bind_eq_some_iff.mp hcheck
  obtain ⟨⟨s₀, x₀⟩, h₀, hcheck⟩ := Option.bind_eq_some_iff.mp hcheck
  obtain ⟨⟨s₂, L⟩, h₂, hcheck⟩ := Option.bind_eq_some_iff.mp hcheck
  obtain ⟨⟨s₃, x₃⟩, h₃, heq⟩ := Option.map_eq_some_iff.mp hcheck
  simp only [Prod.mk.injEq] at heq
  obtain ⟨hbefore, rfl, rfl, rfl⟩ := heq
  have hstart : RunFrom s₀ [] s₀ := .start rfl
  have hrun : RunFrom s₀ ([] ++ getEvents) s₂ := run_replay hstart h₂
  rw [List.nil_append] at hrun
  have hget : Get H getEvents 0 (ascii "a") (.ok ⟨ascii "uv", by decide⟩) s₁ s₀ s₂ s₃ :=
    ⟨run_replay run_fresh h₁, .advance h₀, hrun, fun name r hm => by
      simp [getEvents] at hm, .advance h₃⟩
  obtain ⟨⟨L₁, L₂, t, hL, ht, -, hsame⟩, -⟩ := get_linearizes hget (quick_of_length (by decide))
  exact ⟨H, s₁, s₀, s₂, s₃, hget, hbefore, L₁, t, hL ▸ List.prefix_append _ _, ht, hsame.symm⟩

/-! ### A writer that has stopped -/

/-- **The writer never blocks a get.** From every state of every run, whatever the writer is in the middle
of, a get that is called there and left alone returns what `get_with_result` computes from the memory as it
stands, and a get under way ends as well. -/
theorem get_completes (h : Run H s) (i : ℕ) :
    (∀ name, s.reader i = .idle →
      ∃ L s₂ s₃, RunOf i (s.setReader i (.finding name (Publish.find readerMap name).run)) L s₂ ∧
        Get H L i name (getAlone s.mem name) s
          (s.setReader i (.finding name (Publish.find readerMap name).run)) s₂ s₃) ∧
    (s.reader i ≠ .idle → ∃ L s₂ name r, RunOf i s L s₂ ∧ s₂.reader i = .done name r) := by
  obtain ⟨c, hw⟩ := h.world
  constructor
  · intro name hr
    have hb := Step.get hr name
    obtain ⟨c', hw'⟩ := Run.world (h.snoc hb)
    obtain ⟨L, hL⟩ := goes_get hw' setReader_self
    obtain ⟨hrun, hinner⟩ := hL.runFrom
    refine ⟨L, _, _, hL, h, hb, hrun, fun n r hm => ?_, .got setReader_self⟩
    rcases hinner _ hm with he | ⟨_, he⟩ | ⟨_, he⟩ <;> cases he
  · intro hr
    obtain ⟨name, r, L, hL⟩ := hw.goes (h.live i) hr
    exact ⟨L, _, name, r, hL, setReader_self⟩

/-- With an `add` of `a` under way that nobody continues, `a` is read. -/
theorem get_completes_a : ∃ H s L s₂ s₃, Run H s ∧ s.adding.isSome ∧
    RunOf 0 (s.setReader 0 (.finding [97] (Publish.find readerMap [97]).run)) L s₂ ∧
    Get H L 0 [97] (getAlone s.mem [97]) s
      (s.setReader 0 (.finding [97] (Publish.find readerMap [97]).run)) s₂ s₃ := by
  have hrun := run_fresh.snoc (@Step.add fresh rfl rfl ⟨[97], by decide⟩ ⟨[49], by decide⟩ (by decide))
  obtain ⟨L, s₂, s₃, hL, h⟩ := (get_completes hrun 0).1 [97] rfl
  exact ⟨_, _, L, s₂, s₃, hrun, rfl, hL, h⟩

/-! ### Sets -/

/-- A get that nobody disturbs returns the value. -/
def Sees (m : Mem) (name v : Bytes) : Prop := ∃ str, getAlone m name = .ok str ∧ str.bytes = v

theorem World.sees (h : World c s) {e : Entry} (hl : c.shape.lookup name = some e) :
    Sees s.mem name e.value := by
  have hshows := h.getAlone name
  cases hr : Shared.getAlone s.mem name with
  | ok str =>
    rw [hr] at hshows
    obtain ⟨e', hl', hv⟩ := hshows
    obtain rfl := Option.some.inj (hl.symm.trans hl')
    exact ⟨str, hr, hv⟩
  | error err =>
    rw [hr] at hshows
    cases hl.symm.trans (c.wf.find_error hshows).1

theorem World.lookup_of_find (h : World c s) (hf : (readerMap.withData s.mem).find name = .ok off) :
    ∃ e, c.shape.lookup name = some e ∧ e.off = off :=
  c.wf.find_eq_ok_iff.mp ((h.linked.find name).symm.trans hf)

theorem World.find_of_lookup (h : World c s) {e : Entry} (hl : c.shape.lookup name = some e) :
    (readerMap.withData s.mem).find name = .ok e.off :=
  (h.linked.find name).trans (c.wf.find_of_lookup hl)

theorem World.absent (h : World c s) (hl : c.shape.lookup name = none) :
    (Shared.getAlone s.mem name).toOption = none := by
  have hshows := h.getAlone name
  cases hr : Shared.getAlone s.mem name with
  | ok str =>
    rw [hr] at hshows
    obtain ⟨e, hl', -⟩ := hshows
    cases hl.symm.trans hl'
  | error err => rfl

/-- Contents that agree on a name show the same. -/
theorem World.same (h : World c s) (h' : World c' s')
    (hl : c'.shape.lookup name = c.shape.lookup name) :
    (Shared.getAlone s'.mem name).toOption = (Shared.getAlone s.mem name).toOption := by
  cases hn : c.shape.lookup name with
  | none => rw [h.absent hn, h'.absent (hl.trans hn)]
  | some e =>
    obtain ⟨str, hr, hv⟩ := h.sees hn
    obtain ⟨str', hr', hv'⟩ := h'.sees (hl.trans hn)
    rw [hr, hr', Str.ext (hv'.trans hv.symm)]

/-- **Where sets take effect.** In every run a step changes the value a get of a name returns, or that it
has none, in two cases only: an `add` of the name is under way and gives it its value, or the step is the
clean serial of an update of its entry and gives it the new one. No other access of `add` and `update`, and
no step of a reader, is seen. The clean serial always has that effect, and when `add` returns `Ok` its name
has a value. The only errors a get may fail with are that the name is absent or has an empty segment. -/
theorem set_takes_effect (h : Run H s) (hs : Step s x s') (name : Bytes) :
    ((getAlone s'.mem name).toOption = (getAlone s.mem name).toOption ∨
      (∃ a, s.adding = some a ∧ a.name = name ∧ (getAlone s.mem name).toOption = none ∧
        Sees s'.mem name a.value) ∨
      ∃ off value, x = .commit off value ∧ (readerMap.withData s.mem).find name = .ok off ∧
        Sees s'.mem name value) ∧
    (∀ off value, x = .commit off value → (readerMap.withData s.mem).find name = .ok off →
      Sees s'.mem name value) ∧
    (∀ value, x = .added name value (.ok ()) → ∃ v, Sees s'.mem name v) ∧
    ∀ e, getAlone s'.mem name = .error e → e.isNotFound = true ∨
      [] ∈ splitDot name ∧ e = .parse s!"Invalid property name: {display name}" := by
  obtain ⟨c, hw⟩ := h.world
  obtain ⟨c', hw', hch⟩ := hw.step hs
  refine ⟨?_, fun off value hx hf => ?_, fun value hx => ?_, fun e he => ?_⟩
  · cases hch.effect name with
    | same hl => exact .inl (hw.same hw' hl)
    | bound ha hn hnone he hv => exact .inr (.inl ⟨_, ha, hn, hw.absent hnone, hv ▸ hw'.sees he⟩)
    | updated hx he he' => exact .inr (.inr ⟨_, _, hx, hw.find_of_lookup he, hw'.sees he'⟩)
  · obtain ⟨e, hl, rfl⟩ := hw.lookup_of_find hf
    exact hw'.sees (hch.commit name e value hx hl)
  · obtain ⟨e, hl⟩ := hch.bound name value hx
    exact ⟨_, hw'.sees hl⟩
  · have hshows := hw'.getAlone name
    rw [he] at hshows
    exact (c'.wf.find_error hshows).2

/-- The clean serial of an update of `a`. -/
theorem set_takes_effect_commit : ∃ H s s', Run H s ∧ Step s (.commit 136 (ascii "uv")) s' ∧
    getAlone s.mem (ascii "a") = .ok ⟨ascii "x", by decide⟩ ∧ Sees s'.mem (ascii "a") (ascii "uv") := by
  have hcheck : ((fresh.replay (addA ++ updateA 10)).bind fun r => (r.1.advance .writer).map fun e =>
        ((readerMap.withData r.1.mem).find (ascii "a"), getAlone r.1.mem (ascii "a"), e.2)) =
      some (.ok 136, .ok ⟨ascii "x", by decide⟩, .commit 136 (ascii "uv")) := by
    decide +kernel
  obtain ⟨⟨s, H⟩, h, hcheck⟩ := Option.bind_eq_some_iff.mp hcheck
  obtain ⟨⟨s', x⟩, hs, heq⟩ := Option.map_eq_some_iff.mp hcheck
  simp only [Prod.mk.injEq] at heq
  obtain ⟨hfind, hbefore, rfl⟩ := heq
  have hrun := run_replay run_fresh h
  have hstep := Step.advance hs
  exact ⟨H, s, s', hrun, hstep, hbefore,
    (set_takes_effect hrun hstep (ascii "a")).2.1 136 (ascii "uv") rfl hfind⟩

/-! ### The value of a name -/

/-- What a history says the value of a name is, whose entry is at the offset: that of the last completed
update of the entry, or without one a value the name was added with. -/
def Latest (H : List Event) (name : Bytes) (off : ℕ) (v : Bytes) : Prop :=
  (∃ H₁ H₂, H = H₁ ++ .commit off v :: H₂ ∧ commits off H₂ = 0) ∨
    (commits off H = 0 ∧ .add name v ∈ H)

theorem commits_snoc_of_not {H : List Event} (h : isCommit off x = false) :
    commits off (H ++ [x]) = commits off H := by
  rw [commits_append]
  simp [commits, h]

theorem Latest.snoc {v : Bytes} (h : Latest H name off v) (hx : isCommit off x = false) :
    Latest (H ++ [x]) name off v := by
  refine h.imp ?_ fun h' => ?_
  · rintro ⟨H₁, H₂, rfl, h0⟩
    exact ⟨H₁, H₂ ++ [x], List.append_assoc _ _ _, (commits_snoc_of_not hx).trans h0⟩
  · exact ⟨(commits_snoc_of_not hx).trans h'.1, List.mem_append_left _ h'.2⟩

theorem Latest.here (H : List Event) (name : Bytes) (off : ℕ) (v : Bytes) :
    Latest (H ++ [.commit off v]) name off v := .inl ⟨H, [], rfl, rfl⟩

/-- What a history says about the contents. -/
structure Recorded (H : List Event) (c : Contents) (s : State) : Prop where
  latest : ∀ name e, c.shape.lookup name = some e → Latest H name e.off e.value
  known : ∀ off, commits off H ≠ 0 → ∃ n e, c.shape.entry n = some e ∧ e.off = off
  adding : ∀ a, s.adding = some a → .add a.name a.value ∈ H
  added : ∀ name value, .added name value (.ok ()) ∈ H → ∃ e, c.shape.lookup name = some e

/-- An update that completes is one of an entry. -/
theorem World.isShort_of_commit (h : World c s) (hs : Step s x s') (hx : isCommit off x = true) :
    IsShort c.shape off := by
  cases hs with
  | write hu =>
    rcases Seqlock.writerStep_event s.mem s.updating with he | ⟨o, v, cur, hw, he⟩
    · rw [he] at hx
      cases hx
    · rw [he] at hx
      obtain rfl : o = off := of_decide_eq_true hx
      have hphase := h.entries.phase
      rw [hw] at hphase
      exact hphase.1
  | @read j name' rd hr =>
    rcases readStep_event s.mem j name' rd with he | ⟨_, he⟩ | ⟨_, he⟩ <;> rw [he] at hx <;> cases hx
  | _ => cases hx

/-- The entry of a new name is no entry there was. -/
theorem not_entry_of_new (hle : c ≤ c') (hnone : c.shape.lookup name = none) {e : Entry}
    (he : c'.shape.lookup name = some e) {n : ℕ} {e₀ : Entry} (hn : c.shape.entry n = some e₀) :
    e₀.off ≠ e.off := by
  intro ho
  have hl₀ : c.shape.lookup (joinDot (c.shape.path n)) = some e₀ :=
    c.wf.lookup_eq_some_iff.mpr ⟨n, hn, rfl⟩
  have hspreads : c.shape.Spreads c'.shape := hle.spreads
  obtain ⟨e₁, hl₁, ho₁⟩ := hspreads.lookup hl₀
  obtain ⟨k, hk, hname⟩ := c'.wf.lookup_eq_some_iff.mp hl₁
  obtain ⟨k', hk', rfl⟩ := c'.wf.lookup_eq_some_iff.mp he
  obtain rfl := c'.wf.entry_injective hk hk' (ho₁.trans ho)
  rw [← hname] at hl₀
  cases hl₀.symm.trans hnone

theorem Step.adding (hs : Step s x s') {a : Adding} (ha : s'.adding = some a) :
    x = .add a.name a.value ∨ ∃ a₀, s.adding = some a₀ ∧ a₀.name = a.name ∧ a₀.value = a.value := by
  cases hs with
  | add =>
    obtain rfl := Option.some.inj ha
    exact .inl rfl
  | store ha₀ =>
    obtain rfl := Option.some.inj ha
    exact .inr ⟨_, ha₀, rfl, rfl⟩
  | added => cases ha
  | _ => exact .inr ⟨a, ha, rfl, rfl⟩

/-- **One step** of the record. -/
theorem Recorded.step (h : Recorded H c s) (hw : World c s) (hs : Step s x s')
    (hch : Change c s x c' s') : Recorded (H ++ [x]) c' s' := by
  refine ⟨fun name e hl => ?_, fun off h0 => ?_, fun a ha => ?_, fun name value hm => ?_⟩
  · cases hch.effect name with
    | same heq =>
      have hl₀ := heq ▸ hl
      cases hx : isCommit e.off x with
      | false => exact (h.latest name e hl₀).snoc hx
      | true =>
        obtain ⟨value, rfl⟩ : ∃ value, x = .commit e.off value := by
          cases x <;> simp_all [isCommit]
        have he := Option.some.inj (hl.symm.trans (hch.commit name e value rfl hl₀))
        have hv : e.value = value := congrArg Entry.value he
        rw [hv]
        exact Latest.here _ _ _ _
    | @bound a e' ha hn hnone he hv =>
      obtain rfl := Option.some.inj (hl.symm.trans he)
      have hno : ∀ n e₀, c.shape.entry n = some e₀ → e₀.off ≠ e.off := fun n e₀ =>
        not_entry_of_new hch.le hnone hl
      have hx : isCommit e.off x = false := by
        cases hx : isCommit e.off x with
        | false => rfl
        | true =>
          obtain ⟨n, e₀, he₀, ho, -⟩ := hw.isShort_of_commit hs hx
          exact absurd ho (hno n e₀ he₀)
      refine .inr ⟨?_, List.mem_append_left _ (hn ▸ hv ▸ h.adding a ha)⟩
      rw [commits_snoc_of_not hx]
      by_contra hne
      obtain ⟨n, e₀, he₀, ho⟩ := h.known e.off hne
      exact hno n e₀ he₀ ho
    | @updated e₀ value hx he he' =>
      obtain rfl := Option.some.inj (hl.symm.trans he')
      subst hx
      exact Latest.here _ _ _ _
  · have hspreads : c.shape.Spreads c'.shape := hch.le.spreads
    have hold : ∃ n e, c.shape.entry n = some e ∧ e.off = off := by
      cases hx : isCommit off x with
      | true =>
        obtain ⟨n, e, he, ho, -⟩ := hw.isShort_of_commit hs hx
        exact ⟨n, e, he, ho⟩
      | false =>
        rw [commits_snoc_of_not hx] at h0
        exact h.known off h0
    obtain ⟨n, e, he, rfl⟩ := hold
    obtain ⟨e', he', ho⟩ := hspreads.entry n e he
    exact ⟨n, e', he', ho⟩
  · rcases hs.adding ha with rfl | ⟨a₀, ha₀, hn, hv⟩
    · simp
    · exact List.mem_append_left _ (hn ▸ hv ▸ h.adding a₀ ha₀)
  · rcases List.mem_append.mp hm with hm | hm
    · obtain ⟨e, hl⟩ := h.added name value hm
      have hspreads : c.shape.Spreads c'.shape := hch.le.spreads
      obtain ⟨e', hl', -⟩ := hspreads.lookup hl
      exact ⟨e', hl'⟩
    · exact hch.bound name value (List.mem_singleton.mp hm).symm

/-- Every run records its contents. -/
theorem Run.recorded (h : Run H s) : ∃ c, World c s ∧ Recorded H c s := by
  induction h with
  | start hs =>
    refine ⟨_, .init hs, fun name e hl => ?_, fun off h0 => absurd rfl h0, fun a ha => ?_, by simp⟩
    · obtain ⟨k, -, he⟩ := Option.bind_eq_some_iff.mp hl
      cases he
    · rw [hs.2.1] at ha
      cases ha
  | snoc _ hs ih =>
    obtain ⟨c, hw, hrec⟩ := ih
    obtain ⟨c', hw', hch⟩ := hw.step hs
    exact ⟨c', hw', hrec.step hw hs hch⟩

/-- **The last write wins.** At any moment of any run a name that is bound has the value of the last
completed update of its entry, or if there was none a value it was added with, whatever is under way; and a
name whose `add` has returned `Ok` is bound. -/
theorem last_write_wins (h : Run H s) (name : Bytes) :
    (∀ off, (readerMap.withData s.mem).find name = .ok off →
      ∃ v, Sees s.mem name v ∧ Latest H name off v) ∧
    (∀ value, .added name value (.ok ()) ∈ H →
      ∃ off, (readerMap.withData s.mem).find name = .ok off) := by
  obtain ⟨c, hw, hrec⟩ := h.recorded
  constructor
  · intro off hf
    obtain ⟨e, hl, rfl⟩ := hw.lookup_of_find hf
    exact ⟨e.value, hw.sees hl, hrec.latest name e hl⟩
  · intro value hm
    obtain ⟨e, hl⟩ := hrec.added name value hm
    exact ⟨e.off, hw.find_of_lookup hl⟩

/-- The value of `a` after it has been added and updated, while `b` is added. -/
theorem last_write_wins_updated : ∃ H s v, Run H s ∧ s.adding.isSome = true ∧ commits 136 H = 1 ∧
    (readerMap.withData s.mem).find (ascii "a") = .ok 136 ∧ Sees s.mem (ascii "a") v ∧
    Latest H (ascii "a") 136 v := by
  have hcheck : ((fresh.replay (addA ++ updateA 11 ++ addB)).map fun r =>
      (r.1.adding.isSome, commits 136 r.2, decide (.added (ascii "a") (ascii "x") (.ok ()) ∈ r.2),
        (readerMap.withData r.1.mem).find (ascii "a"))) = some (true, 1, true, .ok 136) := by
    decide +kernel
  obtain ⟨⟨s, H⟩, h, heq⟩ := Option.map_eq_some_iff.mp hcheck
  simp only [Prod.mk.injEq, decide_eq_true_eq] at heq
  obtain ⟨hadding, hcommits, hadded, hfind⟩ := heq
  have hrun : Run H s := run_replay run_fresh h
  obtain ⟨hvalue, hbound⟩ := last_write_wins hrun (ascii "a")
  obtain ⟨off, hoff⟩ := hbound (ascii "x") hadded
  obtain rfl : off = 136 := Except.ok.inj (hoff.symm.trans hfind)
  obtain ⟨v, hv, hlatest⟩ := hvalue 136 hoff
  exact ⟨H, s, v, hrun, hadding, hcommits, hoff, hv, hlatest⟩

end Shared

end RsProperties
