import RsProperties.Publish.Lookup
import RsProperties.Publish.Writer
import RsProperties.Library.Trace

/-!
# Lookups beside a writer

One area file, mapped read-write by its writer and read-only by everybody else. The writer runs any
sequence of `add` calls, any number of readers run `find`, and no lock is taken: every load and every
store is one step, in any order. Memory is sequentially consistent.

The contents the file has published are the ghost of the argument (`World`): the writer only lets them
grow, and a reader loads what they say. So every lookup ends as an undisturbed `find` would end at some
moment while it ran (`find_linearizes`), which is what the rest follows from.
-/

namespace RsProperties

open ByteMem PropertyAreaMap Process

namespace Publish

/-- The writer's mapping. -/
def writerMap : PropertyAreaMap := newRw

/-- A reader's mapping of the same file. -/
def readerMap : PropertyAreaMap := { newRw with mmap := { newRw.mmap with writable := false } }

/-- What an observer of the system sees; `i` identifies a reader. -/
inductive Event
  | add (name value : Bytes)
  | added (name value : Bytes) (r : Except Error Unit)
  | find (i : ℕ) (name : Bytes)
  | found (i : ℕ) (name : Bytes) (r : Except Error ℕ)
  /-- A single access. -/
  | tau

/-- An `add` under way. -/
structure Adding where
  name : Bytes
  value : Bytes
  rest : Process Access Access.Ans (Except Error Unit)

/-- A `find` under way. -/
structure Finding where
  name : Bytes
  rest : Process Access Access.Ans (Except Error ℕ)

structure State where
  mem : Mem
  writer : Option Adding
  reader : ℕ → Option Finding

/-- The steps of the system. A value with a NUL never comes to the area: `SystemProperties::add`, the
only caller of its `add`, has rejected it. -/
inductive Step : State → Event → State → Prop
  | add {s : State} (hw : s.writer = none) {name value : Bytes} (hv : 0 ∉ value) :
      Step s (.add name value)
        { s with writer := some ⟨name, value, (Publish.add writerMap name value).run⟩ }
  | write {s : State} {name value : Bytes} {o : Access}
      {next : o.Ans → Process Access Access.Ans (Except Error Unit)}
      (hw : s.writer = some ⟨name, value, .perform o next⟩) :
      Step s .tau { s with
        mem := (o.act s.mem).2, writer := some ⟨name, value, next (o.act s.mem).1⟩ }
  | added {s : State} {name value : Bytes} {r : Except Error Unit}
      (hw : s.writer = some ⟨name, value, .done r⟩) :
      Step s (.added name value r) { s with writer := none }
  | find {s : State} {i : ℕ} (hr : s.reader i = none) (name : Bytes) :
      Step s (.find i name) { s with
        reader := Function.update s.reader i (some ⟨name, (Publish.find readerMap name).run⟩) }
  | read {s : State} {i : ℕ} {name : Bytes} {o : Access}
      {next : o.Ans → Process Access Access.Ans (Except Error ℕ)}
      (hr : s.reader i = some ⟨name, .perform o next⟩) :
      Step s .tau { s with
        mem := (o.act s.mem).2,
        reader := Function.update s.reader i (some ⟨name, next (o.act s.mem).1⟩) }
  | found {s : State} {i : ℕ} {name : Bytes} {r : Except Error ℕ}
      (hr : s.reader i = some ⟨name, .done r⟩) :
      Step s (.found i name r) { s with reader := Function.update s.reader i none }

/-- A file `new_rw` has just created. -/
def Init (s : State) : Prop := s.mem = newRw.mmap.data ∧ s.writer = none ∧ ∀ i, s.reader i = none

/-- The runs of the system, with their histories. -/
abbrev Run : List Event → State → Prop := Trace.Run Init Step

/-- The runs that go on from a state. -/
abbrev RunFrom (s : State) : List Event → State → Prop := Trace.Run (· = s) Step

/-! ### What holds in every state -/

/-- The calls made in a history. -/
def Called (H : List Event) (name value : Bytes) : Prop := .add name value ∈ H

/-- What the writer has still to keep. -/
def WriterOk (calls : Bytes → Bytes → Prop) (c : Published) (m : Mem) : Option Adding → Prop
  | none => Settled writerMap calls ⟨c, m⟩ m
  | some w => Maintains Access.act (Keeping calls) (fun c' t r => Settled writerMap calls ⟨c', t⟩ t ∧
      (r = .ok () → ∃ e, c'.shape.lookup w.name = some e)) c m w.rest

/-- What a reader has still to observe. -/
def ReaderOk (c : Published) (f : Finding) : Prop :=
  ∀ o next, f.rest = .perform o next →
    Observes Access.act Skeletal (fun k => Found f.name k.shape) ⟨c⟩ f.rest

/-- The contents `c` have been published after the history `H`. -/
structure World (H : List Event) (c : Published) (s : State) : Prop where
  keeping : Keeping (Called H) c s.mem
  writer : WriterOk (Called H) c s.mem s.writer
  reader : ∀ i f, s.reader i = some f → ReaderOk c f
  added : ∀ name value, .added name value (.ok ()) ∈ H → ∃ e, c.shape.lookup name = some e

variable {H L : List Event} {c c' : Published} {s s' s₀ s₁ s₂ s₃ : State} {i : ℕ} {name : Bytes}
  {r : Except Error ℕ} {x : Event}

theorem sized_readerMap : Sized readerMap := ⟨rfl, rfl, rfl⟩

theorem called_append (H L : List Event) (name value : Bytes) (h : Called H name value) :
    Called (H ++ L) name value := List.mem_append_left _ h

theorem Keeping.mono {calls calls' : Bytes → Bytes → Prop} {m : Mem}
    (hc : ∀ name value, calls name value → calls' name value) (h : Keeping calls c m) :
    Keeping calls' c m := ⟨h.1, fun name e hl => hc name e.value (h.2 name e hl)⟩

theorem Settled.mono {pa : PropertyAreaMap} {calls calls' : Bytes → Bytes → Prop} {c : Framed}
    {m : Mem} (hc : ∀ name value, calls name value → calls' name value) (h : Settled pa calls c m) :
    Settled pa calls' c m := ⟨h.inv, fun name e hl => hc name e.value (h.values name e hl), h.kept⟩

theorem WriterOk.mono {calls calls' : Bytes → Bytes → Prop} {m : Mem} {w : Option Adding}
    (hc : ∀ name value, calls name value → calls' name value) (h : WriterOk calls c m w) :
    WriterOk calls' c m w := by
  cases w with
  | none => exact Settled.mono hc h
  | some w => exact Maintains.mono (fun _ _ => .mono hc) (fun _ _ _ _ hr => ⟨hr.1.mono hc, hr.2⟩) h

theorem ReaderOk.of_le {f : Finding} (hle : c ≤ c') (h : ReaderOk c f) : ReaderOk c' f := by
  intro o next hf
  have h' := h o next hf
  rw [hf] at h' ⊢
  exact h'.of_le (Shape.Grows.spreads hle)

/-- An event that is no successful return of an `add` leaves the contents as they are. -/
theorem World.mono (h : World H c s)
    (hx : ∀ name value, x = .added name value (.ok ()) → ∃ e, c.shape.lookup name = some e) :
    World (H ++ [x]) c s where
  keeping := h.keeping.mono (called_append H [x])
  writer := h.writer.mono (called_append H [x])
  reader := h.reader
  added name value hm := by
    rcases List.mem_append.mp hm with hm | hm
    · exact h.added name value hm
    · exact hx name value (List.mem_singleton.mp hm).symm

/-- **A load of a reader** changes nothing and sees the published contents. -/
theorem World.read (h : World H c s) {o : Access}
    {next : o.Ans → Process Access Access.Ans (Except Error ℕ)}
    (hr : s.reader i = some ⟨name, .perform o next⟩) : (o.act s.mem).2 = s.mem ∧
      Observes Access.act Skeletal (fun k => Found name k.shape) ⟨c⟩ (next (o.act s.mem).1) :=
  (h.reader i _ hr o next rfl).step (show Skeletal ⟨c⟩ s.mem from h.keeping.1.linked)

theorem World.read_step (h : World H c s) {o : Access}
    {next : o.Ans → Process Access Access.Ans (Except Error ℕ)}
    (hr : s.reader i = some ⟨name, .perform o next⟩) : World (H ++ [.tau]) c { s with
      mem := (o.act s.mem).2,
      reader := Function.update s.reader i (some ⟨name, next (o.act s.mem).1⟩) } := by
  obtain ⟨hmem, hobs⟩ := h.read hr
  rw [hmem]
  have h' := h.mono (x := .tau) (by simp)
  refine ⟨h'.keeping, h'.writer, fun j f hf => ?_, h'.added⟩
  simp only [Function.update_apply] at hf
  split_ifs at hf with hj
  · obtain rfl := Option.some.inj hf
    exact fun o' next' hn => hobs
  · exact h.reader j f hf

theorem World.find_step (h : World H c s) (i : ℕ) (name : Bytes) : World (H ++ [.find i name]) c
    { s with reader :=
      Function.update s.reader i (some ⟨name, (Publish.find readerMap name).run⟩) } := by
  have h' := h.mono (x := .find i name) (by simp)
  refine ⟨h'.keeping, h'.writer, fun j f hf => ?_, h'.added⟩
  simp only [Function.update_apply] at hf
  split_ifs at hf with hj
  · obtain rfl := Option.some.inj hf
    exact fun o next hn => observes_find sized_readerMap ⟨c⟩ name
  · exact h.reader j f hf

/-- **One step**: the contents only grow. -/
theorem World.step (h : World H c s) (hs : Step s x s') :
    ∃ c', c ≤ c' ∧ World (H ++ [x]) c' s' := by
  cases hs with
  | @add hw name value hv =>
    have h' := h.mono (x := .add name value) (by simp)
    refine ⟨c, le_rfl, h'.keeping, ?_, h'.reader, h'.added⟩
    have hset := h'.writer
    rw [hw] at hset
    exact (publishes_add hset hv (List.mem_append_right _ (List.mem_singleton.mpr rfl))).published
  | @write name value o next hw =>
    have hok := h.writer
    rw [hw] at hok
    obtain ⟨c', hle, hkeep, hrest⟩ := Maintains.step hok
    refine ⟨c', hle, World.mono ⟨hkeep, hrest, fun j f hf => (h.reader j f hf).of_le hle, ?_⟩ (by simp)⟩
    intro name value hm
    obtain ⟨e, he⟩ := h.added name value hm
    exact ⟨e, hle.lookup he⟩
  | @added name value r hw =>
    have hok := h.writer
    rw [hw] at hok
    obtain ⟨c', hle, hkeep, hset, hr⟩ := hok
    refine ⟨c', hle, World.mono ⟨hkeep, hset, fun j f hf => (h.reader j f hf).of_le hle, ?_⟩ ?_⟩
    · intro name value hm
      obtain ⟨e, he⟩ := h.added name value hm
      exact ⟨e, hle.lookup he⟩
    · rintro _ _ ⟨⟩
      exact hr rfl
  | find hr name => exact ⟨c, le_rfl, h.find_step _ name⟩
  | read hr => exact ⟨c, le_rfl, h.read_step hr⟩
  | @found i name r hr =>
    have h' := h.mono (x := .found i name r) (by simp)
    refine ⟨c, le_rfl, h'.keeping, h'.writer, fun j f hf => ?_, h'.added⟩
    simp only [Function.update_apply] at hf
    split_ifs at hf with hj
    exact h.reader j f hf

theorem World.init (h : Init s) : World [] (.ofInv areaInv_newRw) s := by
  obtain ⟨hm, hw, hr⟩ := h
  have hfrom : (Published.ofInv areaInv_newRw).From (Called []) := by
    intro name e hl
    obtain ⟨k, -, he⟩ := Option.bind_eq_some_iff.mp hl
    cases he
  refine ⟨⟨?_, hfrom⟩, ?_, fun i f hf => ?_, by simp⟩
  · rw [hm]
    exact areaInv_newRw.rep
  · rw [hw, hm]
    exact ⟨areaInv_newRw, hfrom, .refl _ _⟩
  · rw [hr] at hf
    cases hf

/-- **Every run** leads from published contents to larger ones. -/
theorem World.run (h : World H c s) (hr : RunFrom s L s') :
    ∃ c', c ≤ c' ∧ World (H ++ L) c' s' := by
  induction hr with
  | start hs =>
    rw [hs, List.append_nil]
    exact ⟨c, le_rfl, h⟩
  | snoc _ hs ih =>
    obtain ⟨c', hle, hw⟩ := ih
    obtain ⟨c'', hle', hw'⟩ := hw.step hs
    exact ⟨c'', hle.trans hle', List.append_assoc _ _ _ ▸ hw'⟩

theorem Run.world (h : Run H s) : ∃ c, World H c s := by
  induction h with
  | start hs => exact ⟨_, .init hs⟩
  | snoc _ hs ih =>
    obtain ⟨c, hw⟩ := ih
    obtain ⟨c', -, hw'⟩ := hw.step hs
    exact ⟨c', hw'⟩

/-! ### Lookups -/

/-- What a step does to a reader that does not return in it. -/
theorem Step.reader {f : Finding} (hs : Step s x s') (hf : s.reader i = some f)
    (hx : ∀ name r, x ≠ .found i name r) : s'.reader i = some f ∨
      ∃ o next, f.rest = .perform o next ∧ x = .tau ∧ s' = { s with
        mem := (o.act s.mem).2,
        reader := Function.update s.reader i (some ⟨f.name, next (o.act s.mem).1⟩) } := by
  cases hs with
  | add hw hv => exact .inl hf
  | write hw => exact .inl hf
  | added hw => exact .inl hf
  | @find j hr name =>
    by_cases hj : i = j
    · rw [hj, hr] at hf
      cases hf
    · exact .inl ((Function.update_of_ne hj _ _).trans hf)
  | @read j name o next hr =>
    by_cases hj : i = j
    · subst hj
      obtain rfl := Option.some.inj (hf.symm.trans hr)
      exact .inr ⟨o, next, rfl, rfl, rfl⟩
    · exact .inl ((Function.update_of_ne hj _ _).trans hf)
  | @found j name r hr =>
    by_cases hj : i = j
    · exact absurd rfl (hj ▸ hx name r)
    · exact .inl ((Function.update_of_ne hj _ _).trans hf)

/-- The answer of a lookup is right at some moment of the run from `s₀`. -/
def Moment (H L : List Event) (s₀ s : State) (c₀ c : Published) (name : Bytes)
    (r : Except Error ℕ) : Prop :=
  ∃ L₁ L₂ t ct, L = L₁ ++ L₂ ∧ RunFrom s₀ L₁ t ∧ RunFrom t L₂ s ∧ World (H ++ L₁) ct t ∧
    c₀ ≤ ct ∧ ct ≤ c ∧ Found name ct.shape r

theorem Moment.snoc {c₀ : Published} (h : Moment H L s₀ s c₀ c name r) (hle : c ≤ c')
    (hs : Step s x s') : Moment H (L ++ [x]) s₀ s' c₀ c' name r := by
  obtain ⟨L₁, L₂, t, ct, rfl, h₁, h₂, hw, h0, hc, hf⟩ := h
  exact ⟨L₁, L₂ ++ [x], t, ct, List.append_assoc _ _ _, h₁, h₂.snoc hs, hw, h0, hc.trans hle, hf⟩

/-- **A lookup under way**: once its answer is fixed, it was right at the moment of the last load. -/
theorem lookup_moment {c₀ : Published} (h₀ : World H c₀ s₀)
    (hr : s₀.reader i = some ⟨name, (Publish.find readerMap name).run⟩) (h : RunFrom s₀ L s)
    (hi : ∀ name r, .found i name r ∉ L) : ∃ c, c₀ ≤ c ∧ World (H ++ L) c s ∧
      ∃ rest, s.reader i = some ⟨name, rest⟩ ∧
        ∀ r, rest = .done r → Moment H L s₀ s c₀ c name r := by
  induction h with
  | @start s hs =>
    obtain rfl : s = s₀ := hs
    rw [List.append_nil]
    refine ⟨c₀, le_rfl, h₀, _, hr, fun r hdone => ?_⟩
    have hobs := observes_find sized_readerMap ⟨c₀⟩ name
    rw [hdone] at hobs
    exact ⟨[], [], s, c₀, rfl, .start rfl, .start rfl, by rwa [List.append_nil], le_rfl, le_rfl, hobs⟩
  | @snoc L s s' x hrun hs ih =>
    obtain ⟨c, hle, hw, rest, hf, hmoment⟩ := ih fun name r hm => hi name r (List.mem_append_left _ hm)
    have hx : ∀ name r, x ≠ .found i name r := fun name r hx =>
      hi name r (List.mem_append_right _ (List.mem_singleton.mpr hx.symm))
    rw [← List.append_assoc]
    rcases hs.reader hf hx with hf' | ⟨o, next, rfl, rfl, rfl⟩
    · obtain ⟨c', hle', hw'⟩ := hw.step hs
      exact ⟨c', hle.trans hle', hw', rest, hf', fun r hr => (hmoment r hr).snoc hle' hs⟩
    · -- the lookup's own load
      have hw' := hw.read_step hf
      refine ⟨c, hle, hw', _, Function.update_self _ _ _, fun r hdone => ?_⟩
      have hobs := (hw.read hf).2
      rw [hdone] at hobs
      exact ⟨L ++ [.tau], [], _, c, by simp, hrun.snoc hs, .start rfl,
        List.append_assoc _ _ _ ▸ hw', hle, le_rfl, hobs⟩

/-- On memory that holds the nodes and the links of a shape, `find` returns what the shape says. -/
theorem Linked.find {m : Mem} (h : Linked m c.shape) (name : Bytes) :
    (readerMap.withData m).find name = c.shape.find name := by
  have hrun := ((observes_find sized_readerMap ⟨c⟩ name).run (show Skeletal ⟨c⟩ m from h)).1
  have halone := @find_alone readerMap m name
  change Found name c.shape (Process.exec Access.act (Publish.find readerMap name) m).1 at hrun
  rw [halone] at hrun
  exact (found_iff c.wf).mp hrun

/-- Undisturbed from here, `find` returns what the contents say. -/
theorem World.find (h : World H c s) (name : Bytes) :
    (readerMap.withData s.mem).find name = c.shape.find name := h.keeping.1.linked.find name

/-- A lookup in a run: the reader `i` begins it in `s₁`, after the history `H`; the system goes on with
`L`; and in `s₂` it returns `r`. -/
structure Lookup (H L : List Event) (i : ℕ) (name : Bytes) (r : Except Error ℕ)
    (s₁ s₀ s₂ s₃ : State) : Prop where
  run : Run H s₁
  begins : Step s₁ (.find i name) s₀
  between : RunFrom s₀ L s₂
  running : ∀ name r, .found i name r ∉ L
  returns : Step s₂ (.found i name r) s₃

/-- What a lookup that returned has seen. -/
theorem Lookup.moment (h : Lookup H L i name r s₁ s₀ s₂ s₃) :
    ∃ c₁ c₂, World H c₁ s₁ ∧ World (H ++ [.find i name] ++ L) c₂ s₂ ∧
      Moment (H ++ [.find i name]) L s₀ s₂ c₁ c₂ name r := by
  obtain ⟨h₁, hb, h₂, hi, he⟩ := h
  obtain ⟨c₁, hw₁⟩ := h₁.world
  have hstart : World (H ++ [.find i name]) c₁ s₀ ∧
      s₀.reader i = some ⟨name, (Publish.find readerMap name).run⟩ := by
    cases hb with
    | find hr name => exact ⟨hw₁.find_step i name, Function.update_self _ _ _⟩
  obtain ⟨c₂, -, hw₂, rest, hf, hmoment⟩ := lookup_moment hstart.1 hstart.2 h₂ hi
  cases he with
  | found hr =>
    obtain ⟨-, rfl⟩ := Finding.mk.inj (Option.some.inj (hf.symm.trans hr))
    exact ⟨c₁, c₂, hw₁, hw₂, hmoment r rfl⟩

/-- **Lookups linearize**: whatever the writer and the other readers did in the meantime, `find` returns,
or fails with, what it would have returned undisturbed at some moment while it ran. -/
theorem find_linearizes (h : Lookup H L i name r s₁ s₀ s₂ s₃) : ∃ L₁ L₂ t, L = L₁ ++ L₂ ∧
    RunFrom s₀ L₁ t ∧ RunFrom t L₂ s₂ ∧ r = (readerMap.withData t.mem).find name := by
  obtain ⟨c₁, c₂, -, -, L₁, L₂, t, ct, hL, h₁, h₂, hw, -, -, hf⟩ := h.moment
  exact ⟨L₁, L₂, t, hL, h₁, h₂, ((found_iff ct.wf).mp hf).trans (hw.find name).symm⟩

/-- A bound name's entry is complete. -/
theorem World.entryAt (h : World H c s) {e : Entry} (hl : c.shape.lookup name = some e) :
    EntryAt s.mem e.off name e.value := by
  obtain ⟨k, he, rfl⟩ := c.wf.lookup_eq_some_iff.mp hl
  exact h.keeping.1.entry k e he

/-- **What a lookup beside the writer returns.** It never meets a damaged area: no name half written,
no step bound exceeded. An offset it returns is that of a complete entry of the name, with a value an
`add` was called with, and stays so from then on. And a name whose `add` had returned before is found,
at the offset an undisturbed `find` would have returned then. -/
theorem find_beside_adds (h : Lookup H L i name r s₁ s₀ s₂ s₃) :
    (∀ msg, r ≠ .error (.fileValidation msg)) ∧
    (∀ off, r = .ok off → ∃ value, .add name value ∈ H ++ L ∧
      ∀ L' s', RunFrom s₃ L' s' → EntryAt s'.mem off name value) ∧
    (∀ value, .added name value (.ok ()) ∈ H →
      ∃ off, r = .ok off ∧ (readerMap.withData s₁.mem).find name = .ok off) := by
  obtain ⟨c₁, c₂, hw₁, hw₂, L₁, L₂, t, ct, rfl, -, -, -, hle₁, hle₂, hf⟩ := h.moment
  refine ⟨?_, ?_, fun value hadd => ?_⟩
  · rintro msg rfl
    rcases (ct.wf.find_error hf).2 with hn | ⟨-, he⟩
    · cases hn
    · cases he
  · rintro off rfl
    obtain ⟨e, hl, rfl⟩ := hf
    have hl₂ := hle₂.lookup hl
    refine ⟨e.value, ?_, fun L' s' hr => ?_⟩
    · have hcall := hw₂.keeping.2 name e hl₂
      simpa [Called] using hcall
    · obtain ⟨c₃, hle₃, hw₃⟩ := hw₂.step h.returns
      obtain ⟨c', hle', hw'⟩ := hw₃.run hr
      exact hw'.entryAt (hle'.lookup (hle₃.lookup hl₂))
  · obtain ⟨e, hl⟩ := hw₁.added name value hadd
    refine ⟨e.off, ?_, (hw₁.find name).trans (c₁.wf.find_of_lookup hl)⟩
    exact ((found_iff ct.wf).mp hf).trans (ct.wf.find_of_lookup (hle₁.lookup hl))

/-! ### Threads that run to their end -/

/-- The writer may run to its end without a break. -/
theorem runWriter {value : Bytes} {rest : Process Access Access.Ans (Except Error Unit)}
    (hw : s.writer = some ⟨name, value, rest⟩) : ∃ L, (∀ x ∈ L, x = .tau) ∧ RunFrom s L { s with
      mem := (Process.run Access.act rest s.mem).2,
      writer := some ⟨name, value, .done (Process.run Access.act rest s.mem).1⟩ } := by
  induction rest generalizing s with
  | done r =>
    refine ⟨[], by simp, .start ?_⟩
    obtain ⟨m, w, rd⟩ := s
    obtain rfl : w = _ := hw
    rfl
  | perform o next ih =>
    obtain ⟨L, ht, hL⟩ := ih _ (s := { s with
      mem := (o.act s.mem).2, writer := some ⟨name, value, next (o.act s.mem).1⟩ }) rfl
    have hstart : RunFrom s [] s := .start rfl
    exact ⟨_, by simpa using ht, (hstart.snoc (.write hw)).append hL⟩

/-- A reader may run to its end without a break. -/
theorem runReader {rest : Process Access Access.Ans (Except Error ℕ)}
    (hr : s.reader i = some ⟨name, rest⟩) : ∃ L, (∀ x ∈ L, x = .tau) ∧ RunFrom s L { s with
      mem := (Process.run Access.act rest s.mem).2
      reader := Function.update s.reader i
        (some ⟨name, .done (Process.run Access.act rest s.mem).1⟩) } := by
  induction rest generalizing s with
  | done r =>
    refine ⟨[], by simp, .start ?_⟩
    simp only [Process.run]
    rw [← hr, Function.update_eq_self]
  | perform o next ih =>
    obtain ⟨L, ht, hL⟩ := ih _ (s := { s with
      mem := (o.act s.mem).2,
      reader := Function.update s.reader i (some ⟨name, next (o.act s.mem).1⟩) })
        (Function.update_self _ _ _)
    rw [Function.update_idem] at hL
    have hstart : RunFrom s [] s := .start rfl
    exact ⟨_, by simpa using ht, (hstart.snoc (.read hr)).append hL⟩

/-- The memory behind an undisturbed `add`. -/
def afterAdd (m : Mem) (name value : Bytes) : Mem :=
  (Process.run Access.act (Publish.add writerMap name value).run m).2

/-- A whole `add` may run between a load of a reader and the rest of its lookup. -/
theorem exists_add_between {o : Access} {next : o.Ans → Process Access Access.Ans (Except Error ℕ)}
    (hw : s.writer = none) (hr : s.reader i = some ⟨name, .perform o next⟩) (name' : Bytes)
    {value : Bytes} (hv : 0 ∉ value) :
    ∃ L s', RunFrom s (.tau :: .add name' value :: L) s' ∧ (∀ n r, .found i n r ∉ L) ∧
      (∃ r, .added name' value r ∈ L) ∧ s'.reader i = some ⟨name, .done
        (Process.run Access.act (next (o.act s.mem).1) (afterAdd (o.act s.mem).2 name' value)).1⟩ := by
  have h₀ : RunFrom s [] s := .start rfl
  have h₁ := (h₀.snoc (.read hr)).snoc (@Step.add { s with
    mem := (o.act s.mem).2
    reader := Function.update s.reader i (some ⟨name, next (o.act s.mem).1⟩) } hw name' value hv)
  obtain ⟨L₁, ht₁, hL₁⟩ := runWriter (s := { s with
    mem := (o.act s.mem).2
    writer := some ⟨name', value, (Publish.add writerMap name' value).run⟩
    reader := Function.update s.reader i (some ⟨name, next (o.act s.mem).1⟩) }) rfl
  obtain ⟨L₂, ht₂, hL₂⟩ := runReader (i := i) (s := { s with
    mem := afterAdd (o.act s.mem).2 name' value
    writer := none
    reader := Function.update s.reader i (some ⟨name, next (o.act s.mem).1⟩) })
    (Function.update_self _ _ _)
  have h₂ := ((h₁.append hL₁).snoc (.added rfl)).append hL₂
  simp only [List.nil_append, List.cons_append, List.append_assoc] at h₂
  refine ⟨_, _, h₂, fun n r hm => ?_, ⟨_, List.mem_append_right _ List.mem_cons_self⟩,
    Function.update_self _ _ _⟩
  simp only [List.mem_cons, List.mem_append, reduceCtorEq, false_or] at hm
  rcases hm with hm | hm
  · cases ht₁ _ hm
  · cases ht₂ _ hm

/-- A lookup with a whole `add` behind its first load. -/
theorem exists_lookup_beside (h : Run H s) (hw : s.writer = none) (hr : s.reader i = none)
    (name name' value : Bytes) (hv : 0 ∉ value) {o : Access}
    {next : o.Ans → Process Access Access.Ans (Except Error ℕ)}
    (hfirst : (Publish.find readerMap name).run = .perform o next) :
    ∃ L r s₀ s₂ s₃, Lookup H (.tau :: .add name' value :: L) i name r s s₀ s₂ s₃ ∧
      (∃ r', .added name' value r' ∈ L) ∧
      r = (Process.run Access.act (next (o.act s.mem).1) (afterAdd (o.act s.mem).2 name' value)).1 := by
  have hb := Step.find hr name
  rw [hfirst] at hb
  obtain ⟨L, s₂, hL, hi, hadded, hdone⟩ := exists_add_between (s := { s with
    reader := Function.update s.reader i (some ⟨name, .perform o next⟩) }) hw
    (Function.update_self _ _ _) name' hv
  exact ⟨L, _, _, s₂, _, ⟨h, hb, hL, fun n r hm => hi n r (by simpa using hm), .found hdone⟩, hadded, rfl⟩

/-- A run in which `a` has been added. -/
theorem exists_added : ∃ H s, .added [97] [49] (.ok ()) ∈ H ∧ Run H s ∧ s.writer = none ∧
    (∀ i, s.reader i = none) ∧ s.mem = afterAdd newRw.mmap.data [97] [49] := by
  have hok : (Process.run Access.act (Publish.add writerMap [97] [49]).run newRw.mmap.data).1 =
      .ok () := by decide +kernel
  obtain ⟨L, -, hL⟩ := runWriter (s := ⟨newRw.mmap.data,
    some ⟨[97], [49], (Publish.add writerMap [97] [49]).run⟩, fun _ => none⟩) rfl
  rw [hok] at hL
  have hstart : Run [] ⟨newRw.mmap.data, none, fun _ => none⟩ := .start ⟨rfl, rfl, fun _ => rfl⟩
  have hrun := (hstart.snoc (@Step.add _ rfl [97] [49] (by decide))).append hL
  exact ⟨_, _, List.mem_append_right _ (List.mem_singleton.mpr rfl), hrun.snoc (.added rfl), rfl,
    fun _ => rfl, rfl⟩

/-- `a` has been added, and `a.b` is added between the loads of a lookup of `a`. -/
theorem find_beside_adds_a : ∃ H L r s₁ s₀ s₂ s₃,
    Lookup H (.tau :: .add [97, 46, 98] [50] :: L) 0 [97] r s₁ s₀ s₂ s₃ ∧
    (∃ r', .added [97, 46, 98] [50] r' ∈ L) ∧
    ∃ off value, r = .ok off ∧ (readerMap.withData s₁.mem).find [97] = .ok off ∧
      EntryAt s₃.mem off [97] value := by
  obtain ⟨H, s, hadded, hrun, hw, hr, -⟩ := exists_added
  obtain ⟨L, r, s₀, s₂, s₃, h, hb, -⟩ := exists_lookup_beside hrun hw (hr 0) [97] [97, 46, 98] [50]
    (by decide) rfl
  obtain ⟨-, hcomplete, hfound⟩ := find_beside_adds h
  obtain ⟨off, hok, hbefore⟩ := hfound [49] hadded
  obtain ⟨value, -, hat⟩ := hcomplete off hok
  exact ⟨H, L, r, s, s₀, s₂, s₃, h, hb, off, value, hok, hbefore, hat [] s₃ (.start rfl)⟩

/-- A lookup of `b` finds it although it is absent when the lookup begins: `b` is added behind the first
load. -/
theorem find_linearizes_b : ∃ H L off s₁ s₀ s₂ s₃,
    Lookup H (.tau :: .add [98] [50] :: L) 0 [98] (.ok off) s₁ s₀ s₂ s₃ ∧
    (∃ r', .added [98] [50] r' ∈ L) ∧
    (readerMap.withData s₁.mem).find [98] = .error (.notFound "b") ∧
    ∃ L₁ t, RunFrom s₀ L₁ t ∧ L₁ <+: .tau :: .add [98] [50] :: L ∧
      (readerMap.withData t.mem).find [98] = .ok off := by
  obtain ⟨H, s, -, hrun, hw, hr, hmem⟩ := exists_added
  obtain ⟨L, r, s₀, s₂, s₃, h, hb, heq⟩ := exists_lookup_beside hrun hw (hr 0) [98] [98] [50]
    (by decide) rfl
  rw [hmem] at heq
  have hbefore : (readerMap.withData s.mem).find [98] = .error (.notFound "b") := by
    rw [hmem]
    decide +kernel
  have hok : r.isOk = true := by
    rw [heq]
    decide +kernel
  cases r with
  | error e => cases hok
  | ok off =>
    obtain ⟨L₁, L₂, t, hL, ht, -, hfind⟩ := find_linearizes h
    exact ⟨H, L, off, s, s₀, s₂, s₃, h, hb, hbefore, L₁, t, ht, hL ▸ List.prefix_append _ _, hfind.symm⟩

end Publish

end RsProperties
