import RsProperties.Seqlock.Consistency

/-!
# What a read returns

Every iteration of a reader that ends with an agreeing second load has gathered the value the entry had at
the first one. This file follows a whole read, from its entry to its return: the control state of the reader
says what has happened since it entered (`Reading`), so the string of the callback belongs to an iteration
of the same read, and the callback runs once (`read_consistent`).
-/

namespace RsProperties

open ByteMem PropertyAreaMap PropertyInfo Trace

namespace Seqlock

/-! ### What a read has done since it began -/

section Reads

variable {pa : PropertyAreaMap} {g : Shape} {H L A B : List Event} {st st' : State} {x : Event}
  {r off : ℕ} {rd : Reader}

/-- The iteration a read of the entry is in, or has ended in: of the events `L` since its beginning, `A` come
before the first load of the iteration and `B` behind it, and the callback has not run. -/
structure Iteration (r off : ℕ) (L A B : List Event) : Prop where
  split : SplitLast (fun x => isLoad r x = true) L A (.load r off) B
  silent : ∀ y ∈ L, isCallback r y = false

theorem Iteration.snoc (h : Iteration r off L A B) (hl : isLoad r x = false)
    (hc : isCallback r x = false) : Iteration r off (L ++ [x]) A (B ++ [x]) :=
  ⟨h.split.snoc (by simp [hl]), fun y hy => (List.mem_append.mp hy).elim (h.silent y) fun hy =>
    List.mem_singleton.mp hy ▸ hc⟩

/-- What a reader's control state says of the events `L` since it began to read the entry. -/
def Reading (r off : ℕ) (L : List Event) : Reader → Prop
  | .idle => .ret r ∈ L ∨ .utf8Error r off ∈ L
  | .start off' => off' = off ∧ ∀ y ∈ L, isCallback r y = false
  | .load off' _ => off' = off ∧ ∀ y ∈ L, isCallback r y = false
  | .copy off' _ _ _ => off' = off ∧ ∃ A B, Iteration r off L A B
  | .scan off' _ _ => off' = off ∧ ∃ A B, Iteration r off L A B
  | .check off' _ _ _ => off' = off ∧ ∃ A B, Iteration r off L A B
  | .called => ∃ L' str C A B, L = L' ++ .callback r off str :: C ∧ Iteration r off L' A B ∧
    ∀ y ∈ C, isLoad r y = false ∧ isCallback r y = false

/-- A step that is no load and no callback of the reader. -/
theorem Reading.step (h : Reading r off L rd) (hl : isLoad r x = false)
    (hc : isCallback r x = false) : Reading r off (L ++ [x]) rd := by
  have silent : (∀ y ∈ L, isCallback r y = false) → ∀ y ∈ L ++ [x], isCallback r y = false :=
    fun h y hy => (List.mem_append.mp hy).elim (h y) fun hy => List.mem_singleton.mp hy ▸ hc
  have iteration : (∃ A B, Iteration r off L A B) → ∃ A B, Iteration r off (L ++ [x]) A B :=
    fun ⟨A, B, h⟩ => ⟨A, B ++ [x], h.snoc hl hc⟩
  cases rd with
  | idle => exact h.imp (List.mem_append_left _) (List.mem_append_left _)
  | start off' => exact ⟨h.1, silent h.2⟩
  | load off' long => exact ⟨h.1, silent h.2⟩
  | copy off' long s buf => exact ⟨h.1, iteration h.2⟩
  | scan off' s buf => exact ⟨h.1, iteration h.2⟩
  | check off' long s buf => exact ⟨h.1, iteration h.2⟩
  | called =>
    obtain ⟨L', str, C, A, B, rfl, hit, hC⟩ := h
    refine ⟨L', str, C ++ [x], A, B, by simp, hit, fun y hy => ?_⟩
    rcases List.mem_append.mp hy with hy | hy
    · exact hC y hy
    · rw [List.mem_singleton.mp hy]
      exact ⟨hl, hc⟩

/-- The first load of an iteration. -/
theorem Reading.load {long : Option Bytes} (h : Reading r off L (.load off long)) (s : ℕ) :
    Reading r off (L ++ [.load r off]) (afterLoad off long s) := by
  have hit : Iteration r off (L ++ [.load r off]) L [] := by
    refine ⟨.mk_snoc (by simp [isLoad]), fun y hy => ?_⟩
    rcases List.mem_append.mp hy with hy | hy
    · exact h.2 y hy
    · rw [List.mem_singleton.mp hy]
      rfl
  rw [afterLoad.eq_def]
  split_ifs
  · exact ⟨rfl, _, _, hit⟩
  · exact ⟨rfl, _, _, hit⟩
  · cases long with
    | some bytes => exact ⟨rfl, _, _, hit⟩
    | none => exact ⟨rfl, _, _, hit⟩

/-- **A step of the reader itself.** -/
theorem Reading.read {m : Mem} (h : Reading r off L rd) (hne : rd ≠ .idle)
    (hstart : ∀ off', rd = .start off' →
      ∃ long, readerStep pa m r (.start off') = (.load off' long, .tau)) :
    Reading r off (L ++ [(readerStep pa m r rd).2]) (readerStep pa m r rd).1 := by
  cases rd with
  | idle => exact absurd rfl hne
  | start off' =>
    obtain ⟨long, hstep⟩ := hstart off' rfl
    rw [hstep]
    have h' : Reading r off L (.load off' long) := h
    exact h'.step rfl rfl
  | load off' long =>
    obtain rfl := h.1
    exact Reading.load h _
  | copy off' long s buf =>
    simp only [readerStep]
    split_ifs
    · have h' : Reading r off L (.copy off' long s (buf ++ [backupByte m buf.length])) := h
      exact h'.step rfl rfl
    · have h' : Reading r off L (.check off' long s (buf ++ [backupByte m buf.length])) := h
      exact h'.step rfl rfl
  | scan off' s buf =>
    simp only [readerStep]
    split_ifs
    · have h' : Reading r off L (.check off' none s buf) := h
      exact h'.step rfl rfl
    · have h' : Reading r off L (.scan off' s (buf ++ [slotByte m off' buf.length])) := h
      exact h'.step rfl rfl
    · have h' : Reading r off L (.check off' none s (buf ++ [slotByte m off' buf.length])) := h
      exact h'.step rfl rfl
  | check off' long s buf =>
    obtain ⟨rfl, A, B, hit⟩ := h
    simp only [readerStep]
    split_ifs
    · cases fromUtf8 buf with
      | some str => exact ⟨L, str, [], A, B, rfl, hit, by simp⟩
      | none => exact .inr (List.mem_append_right _ (List.mem_singleton.mpr rfl))
    · have h' : Reading r off' L (.load off' long) := ⟨rfl, hit.silent⟩
      exact h'.step rfl rfl
  | called => exact .inl (List.mem_append_right _ (List.mem_singleton.mpr rfl))

/-- What the history says of the reader's last read. -/
def ReadOk (H : List Event) (r : ℕ) (rd : Reader) : Prop :=
  ∀ H₁ off L, SplitLast (fun x => isBegin r x = true) H H₁ (.begin r off) L → Reading r off L rd

theorem ReadOk.snoc {rd' : Reader} (hb : isBegin r x = false)
    (h : ∀ H₁ off L, SplitLast (fun x => isBegin r x = true) H H₁ (.begin r off) L →
      Reading r off (L ++ [x]) rd') : ReadOk (H ++ [x]) r rd' := by
  intro H₁ off L hs
  obtain ⟨L', rfl, hs'⟩ := hs.of_snoc (by simp [hb])
  exact h H₁ off L' hs'

/-- What a step is to a reader: somebody else's, its entry into a read, or its own. -/
theorem Step.reader_cases (hs : Step pa st x st') (r : ℕ) :
    (isBegin r x = false ∧ isLoad r x = false ∧ isCallback r x = false ∧
      st'.reader r = st.reader r) ∨
    (∃ name off, x = .begin r off ∧ pa.find name = .ok off ∧ st'.reader r = .start off) ∨
    (st.reader r ≠ .idle ∧ x = (readerStep pa st.mem r (st.reader r)).2 ∧
      st'.reader r = (readerStep pa st.mem r (st.reader r)).1) := by
  cases hs with
  | update => exact .inl ⟨rfl, rfl, rfl, rfl⟩
  | write =>
    refine .inl ?_
    rcases writerStep_event st.mem st.writer with he | ⟨_, _, _, -, he⟩ <;> rw [he] <;>
      exact ⟨rfl, rfl, rfl, rfl⟩
  | @begin r' hr name off hf =>
    by_cases hrr : r = r'
    · subst hrr
      exact .inr (.inl ⟨name, off, rfl, hf, Function.update_self _ _ _⟩)
    · refine .inl ⟨?_, rfl, rfl, Function.update_of_ne hrr _ _⟩
      simpa [isBegin] using Ne.symm hrr
  | @read r' hr =>
    by_cases hrr : r = r'
    · subst hrr
      exact .inr (.inr ⟨hr, rfl, Function.update_self _ _ _⟩)
    · refine .inl ?_
      have hev : ∀ y : Event, y = (readerStep pa st.mem r' (st.reader r')).2 →
          isBegin r y = false ∧ isLoad r y = false ∧ isCallback r y = false := by
        rintro y rfl
        rcases @readerStep_cases pa st.mem r' _ hr with ⟨-, -, he | ⟨_, he⟩⟩ |
          ⟨_, _, _, _, -, -, ⟨_, -, he⟩ | ⟨-, he⟩⟩ | ⟨-, he⟩ <;> rw [he] <;>
          simp [isBegin, isLoad, isCallback, Ne.symm hrr]
      obtain ⟨hb, hl, hc⟩ := hev _ rfl
      exact ⟨hb, hl, hc, Function.update_of_ne hrr _ _⟩

theorem isBegin_readerStep (m : Mem) (hr : rd ≠ .idle) :
    isBegin r (readerStep pa m r rd).2 = false := by
  rcases @readerStep_cases pa m r _ hr with ⟨-, -, he | ⟨_, he⟩⟩ |
    ⟨_, _, _, _, -, -, ⟨_, -, he⟩ | ⟨-, he⟩⟩ | ⟨-, he⟩ <;> rw [he] <;> rfl

/-- **Every step** keeps what the history says of the reads. -/
theorem ReadOk.step (hinv : AreaInv pa g) (h : SysInv pa g H st)
    (hr : ∀ r, ReadOk H r (st.reader r)) (hs : Step pa st x st') (r : ℕ) :
    ReadOk (H ++ [x]) r (st'.reader r) := by
  rcases hs.reader_cases r with ⟨hb, hl, hc, heq⟩ | ⟨name, off, rfl, -, heq⟩ | ⟨hne, rfl, heq⟩
  · rw [heq]
    exact .snoc hb fun H₁ off L hs' => (hr r H₁ off L hs').step hl hc
  · rw [heq]
    intro H₁ off' L hs'
    obtain ⟨-, ho, rfl⟩ := hs'.unique (.mk_snoc (by simp [isBegin]))
    injection ho with _ ho
    exact ⟨ho.symm, by simp⟩
  · rw [heq]
    refine .snoc (isBegin_readerStep _ hne) fun H₁ off L hs' => ?_
    refine (hr r H₁ off L hs').read hne fun off' hoff => ?_
    have hrd := h.reader r
    rw [hoff] at hrd
    obtain ⟨long, hstep, -⟩ := h.start_step hinv hrd
    exact ⟨long, hstep⟩

theorem readOk_run (hinv : AreaInv pa g)
    (hutf8 : ∀ n e, g.entry n = some e → Utf8.valid e.value = true) (h : Run pa H st) (r : ℕ) :
    ReadOk H r (st.reader r) := by
  have hrun : SysInv pa g H st ∧ ∀ r, ReadOk H r (st.reader r) := by
    refine Run.invariant (I := fun H st => SysInv pa g H st ∧ ∀ r, ReadOk H r (st.reader r))
      (fun s h0 => ⟨sysInv_init hinv hutf8 h0, fun r H₁ off L hs => ?_⟩)
      (fun H s x s' h' hs => ⟨h'.1.step hinv hs, ReadOk.step hinv h'.1 h'.2 hs⟩) h
    have := hs.eq
    simp at this
  exact hrun.2 r

/-- What a reader has done since it last began to read. -/
theorem Run.reading (hinv : AreaInv pa g)
    (hutf8 : ∀ n e, g.entry n = some e → Utf8.valid e.value = true) {H₁ : List Event}
    (hrun : Run pa (H₁ ++ .begin r off :: L) st) (hbegin : ∀ y ∈ L, isBegin r y = false) :
    Reading r off L (st.reader r) :=
  readOk_run hinv hutf8 hrun r H₁ off L
    ⟨rfl, by simp [isBegin], fun y hy => by simp [hbegin y hy]⟩

/-- A return comes after the callback. -/
theorem Step.called_of_ret {r : ℕ} (hs : Step pa st (.ret r) st') : st.reader r = .called := by
  generalize hx : Event.ret r = x at hs
  cases hs with
  | update => cases hx
  | begin => cases hx
  | write =>
    rcases writerStep_event st.mem st.writer with he | ⟨_, _, _, -, he⟩ <;> rw [he] at hx <;>
      cases hx
  | @read r' hr =>
    rcases @readerStep_cases pa st.mem r' _ hr with ⟨-, -, he | ⟨_, he⟩⟩ |
      ⟨_, _, _, _, -, -, ⟨_, -, he⟩ | ⟨-, he⟩⟩ | ⟨hc, he⟩ <;> rw [he] at hx <;> cases hx
    exact hc

/-- **The end of an iteration**: the second load has agreed, and what was read is the value the entry had
at the first one. -/
theorem exists_iteration (hinv : AreaInv pa g)
    (hutf8 : ∀ n e, g.entry n = some e → Utf8.valid e.value = true) {H₁ : List Event} {off' : ℕ}
    (hrun : Run pa (H₁ ++ .begin r off :: L) st) (hbegin : ∀ y ∈ L, isBegin r y = false)
    (hs : Step pa st x st') (hx : (∃ str, x = .callback r off' str) ∨ x = .utf8Error r off') :
    off' = off ∧ ∃ A B buf, Iteration r off L A B ∧
      ((∃ str, fromUtf8 buf = some str ∧ x = .callback r off str) ∨
        (fromUtf8 buf = none ∧ x = .utf8Error r off)) ∧
      (commits off B < 2 ^ 15 →
        buf = valueAfter pa off (H₁ ++ .begin r off :: A) ∧ Utf8.valid buf = true) := by
  obtain ⟨long, s, buf, hc, hser, hend⟩ := hs.exists_check hx
  have hread := Run.reading hinv hutf8 hrun hbegin
  rw [hc] at hread
  obtain ⟨rfl, A, B, hit⟩ := hread
  have hload : SplitLast (fun x => isLoad r x = true) (H₁ ++ .begin r off' :: L)
      (H₁ ++ .begin r off' :: A) (.load r off') B := by
    have h' := hit.split.append_left (H₁ ++ [.begin r off'])
    simpa using h'
  exact ⟨rfl, A, B, buf, hit, hend, fun hlt =>
    (sysInv_run hinv hutf8 hrun).check_value hinv hutf8 hc hser hload hlt⟩

/-- A callback is called with the value the entry had at the first load of the iteration. -/
theorem exists_iteration_of_callback (hinv : AreaInv pa g)
    (hutf8 : ∀ n e, g.entry n = some e → Utf8.valid e.value = true) {H₁ H₃ : List Event}
    {off' : ℕ} {str : Str} (hrun : Run pa (H₁ ++ .begin r off :: L ++ .callback r off' str :: H₃) st)
    (hbegin : ∀ y ∈ L, isBegin r y = false) : off' = off ∧ ∃ A B, Iteration r off L A B ∧
      (commits off B < 2 ^ 15 → str.bytes = valueAfter pa off (H₁ ++ .begin r off :: A)) := by
  obtain ⟨s₁, s₂, hrun₁, hstep⟩ := Run.exists_step hrun
  obtain ⟨rfl, A, B, buf, hit, hend, hval⟩ :=
    exists_iteration hinv hutf8 hrun₁ hbegin hstep (.inl ⟨str, rfl⟩)
  refine ⟨rfl, A, B, hit, fun hlt => ?_⟩
  rcases hend with ⟨str', hu, hx⟩ | ⟨-, hx⟩
  · injection hx with _ _ hstr
    rw [hstr, bytes_of_fromUtf8 hu, (hval hlt).1]
  · cases hx

end Reads

/-! ### Schedules -/

/-- The next step of the writer, or of a reader. -/
def State.advance (pa : PropertyAreaMap) (s : State) : Option ℕ → State × Event
  | none => (⟨(writerStep s.mem s.writer).1, (writerStep s.mem s.writer).2.1, s.reader⟩,
    (writerStep s.mem s.writer).2.2)
  | some r => (⟨s.mem, s.writer,
    Function.update s.reader r (readerStep pa s.mem r (s.reader r)).1⟩,
    (readerStep pa s.mem r (s.reader r)).2)

/-- Whether the writer, or a reader, is under way. -/
def State.busy (s : State) : Option ℕ → Bool
  | none => s.writer != .idle
  | some r => s.reader r != .idle

/-- The state and the history after a schedule, if everybody it names is under way. -/
def State.replay (pa : PropertyAreaMap) (s : State) : List (Option ℕ) → Option (State × List Event)
  | [] => some (s, [])
  | i :: is =>
    if s.busy i then
      ((s.advance pa i).1.replay pa is).map fun r => (r.1, (s.advance pa i).2 :: r.2)
    else none

theorem Step.advance {pa : PropertyAreaMap} {s : State} {i : Option ℕ} (hb : s.busy i = true) :
    Step pa s (s.advance pa i).2 (s.advance pa i).1 := by
  cases i with
  | none => exact .write (by simpa [State.busy] using hb)
  | some r => exact .read (by simpa [State.busy] using hb)

/-- A schedule is a run. -/
theorem Run.replay {pa : PropertyAreaMap} {is : List (Option ℕ)} {H L : List Event} {s s' : State}
    (h : Run pa H s) (hr : s.replay pa is = some (s', L)) : Run pa (H ++ L) s' := by
  induction is generalizing H L s with
  | nil =>
    obtain ⟨rfl, rfl⟩ := Prod.mk.inj (Option.some.inj hr)
    rwa [List.append_nil]
  | cons i is ih =>
    rw [State.replay] at hr
    split_ifs at hr with hb
    obtain ⟨⟨t, L'⟩, hr', heq⟩ := Option.map_eq_some_iff.mp hr
    obtain ⟨rfl, rfl⟩ := Prod.mk.inj heq
    have hrun := ih (h.snoc (.advance hb)) hr'
    simpa using hrun

/-! ### The main result -/

/-- **Seqlock consistency.** Take any area reached by a run over strings, and any interleaving of the
writer's updates and the readers' reads over it. Whatever a read of an entry hands to its callback has been
read in one iteration of that same read, and if fewer than `2 ^ 15` updates of the entry complete in the
iteration, it is the value the entry held at its first load. With so few updates the bytes are never
rejected as UTF-8. A read that returns has run its callback exactly once, and there is no other end of a
read. -/
theorem read_consistent {pa : PropertyAreaMap} {M : Bytes → Option Bytes}
    {seen : List (Bytes × ℕ)} (harea : AreaRun pa M seen)
    (hstr : ∀ name v, M name = some v → Utf8.valid v = true) {H : List Event} {st : State}
    (hrun : Run pa H st) :
    (∀ r off off' str H₁ L H₃, H = H₁ ++ .begin r off :: L ++ .callback r off' str :: H₃ →
      (∀ y ∈ L, isBegin r y = false) → off' = off ∧ ∃ A B, Iteration r off L A B ∧
        (commits off B < 2 ^ 15 → str.bytes = valueAfter pa off (H₁ ++ .begin r off :: A))) ∧
    (∀ r off off' H₁ L H₃, H = H₁ ++ .begin r off :: L ++ .utf8Error r off' :: H₃ →
      (∀ y ∈ L, isBegin r y = false) → off' = off ∧ ∃ A B, Iteration r off L A B ∧
        2 ^ 15 ≤ commits off B) ∧
    (∀ r off H₁ L H₃, H = H₁ ++ .begin r off :: L ++ .ret r :: H₃ →
      (∀ y ∈ L, isBegin r y = false) → ∃ L' str C A B, L = L' ++ .callback r off str :: C ∧
        (∀ y ∈ C, isLoad r y = false ∧ isCallback r y = false) ∧ Iteration r off L' A B ∧
        (commits off B < 2 ^ 15 → str.bytes = valueAfter pa off (H₁ ++ .begin r off :: A))) ∧
    ∀ r off H₁ L, H = H₁ ++ .begin r off :: L → (∀ y ∈ L, isBegin r y = false) →
      st.reader r = .idle → .ret r ∈ L ∨ .utf8Error r off ∈ L := by
  obtain ⟨g, hinv, rfl, -⟩ := harea.exists_shape
  have hutf8 : ∀ n e, g.entry n = some e → Utf8.valid e.value = true := by
    intro n e he
    have hl := hinv.wf.lookup_eq_some_iff.mpr ⟨n, he, rfl⟩
    exact hstr _ _ (by rw [Shape.toMap, hl]; rfl)
  refine ⟨fun r off off' str H₁ L H₃ hH hbegin => ?_, fun r off off' H₁ L H₃ hH hbegin => ?_,
    fun r off H₁ L H₃ hH hbegin => ?_, fun r off H₁ L hH hbegin hidle => ?_⟩
  · subst hH
    exact exists_iteration_of_callback hinv hutf8 hrun hbegin
  · subst hH
    obtain ⟨s₁, s₂, hrun₁, hstep⟩ := Run.exists_step hrun
    obtain ⟨rfl, A, B, buf, hit, hend, hval⟩ :=
      exists_iteration hinv hutf8 hrun₁ hbegin hstep (.inr rfl)
    refine ⟨rfl, A, B, hit, ?_⟩
    by_contra hlt
    rcases hend with ⟨str, -, hx⟩ | ⟨hu, -⟩
    · cases hx
    · rw [fromUtf8_of_valid (hval (by omega)).2] at hu
      cases hu
  · subst hH
    obtain ⟨s₁, s₂, hrun₁, hstep⟩ := Run.exists_step hrun
    have hread := Run.reading hinv hutf8 hrun₁ hbegin
    rw [hstep.called_of_ret] at hread
    obtain ⟨L', str, C, A, B, rfl, hit, hC⟩ := hread
    refine ⟨L', str, C, A, B, rfl, hC, hit, ?_⟩
    have hrun' : Run pa (H₁ ++ .begin r off :: L' ++ .callback r off str :: (C ++ .ret r :: H₃)) st := by
      simpa using hrun
    obtain ⟨-, A', B', hit', hval⟩ := exists_iteration_of_callback hinv hutf8 hrun' fun y hy =>
      hbegin y (List.mem_append_left _ hy)
    -- a read has one last iteration
    obtain ⟨rfl, -, rfl⟩ := hit.split.unique hit'.split
    exact hval
  · subst hH
    have hread := Run.reading hinv hutf8 hrun hbegin
    rw [hidle] at hread
    exact hread

/-- The area with the entry `a`, which reads `x`. -/
private def sampleArea : PropertyAreaMap :=
  finalState (PropertyAreaMap.add (ascii "a") (ascii "x") newRw)

/-- The events of a read that an update of its entry overtakes between two bytes. -/
private def sampleRead : List Event :=
  [.update 136 (ascii "yz"), .tau, .load 0 136] ++ List.replicate 11 .tau ++
    [.commit 136 (ascii "yz"), .tau, .tau, .tau, .load 0 136, .tau, .tau, .tau,
      .callback 0 136 ⟨ascii "yz", by decide⟩]

/-- A read of `a` that has seen the old serial and the first byte of the old value when `a` is set to `yz`. -/
theorem read_consistent_overtaken : ∃ L' str C A B, sampleRead = L' ++ .callback 0 136 str :: C ∧
    (∀ y ∈ C, isLoad 0 y = false ∧ isCallback 0 y = false) ∧ Iteration 0 136 L' A B ∧
    (commits 136 B < 2 ^ 15 → str.bytes = valueAfter sampleArea 136 (.begin 0 136 :: A)) := by
  have harea := AreaRun.add .init (ascii "a") (show 0 ∉ ascii "x" by decide)
  have hok : succeeded (PropertyAreaMap.add (ascii "a") (ascii "x") newRw) = true := by
    decide +kernel
  have hf : sampleArea.find (ascii "a") = .ok 136 := by decide +kernel
  rw [hok] at harea
  have hinit : Run sampleArea [] ⟨sampleArea.mmap.data, .idle, fun _ => .idle⟩ :=
    .start ⟨rfl, rfl, fun _ => rfl⟩
  have hbegin := hinit.snoc (.begin (r := 0) rfl hf)
  have hupdate := hbegin.snoc (@Step.update _ _ rfl _ _ hf ⟨ascii "yz", by decide⟩ rfl)
  have hlog : (State.replay sampleArea ⟨sampleArea.mmap.data, .check 136 (ascii "yz"),
      Function.update (fun _ => .idle) 0 (.start 136)⟩ (List.replicate 3 (some 0) ++
        List.replicate 11 none ++ List.replicate 9 (some 0))).map Prod.snd =
      some (sampleRead.tail ++ [.ret 0]) := by
    decide +kernel
  obtain ⟨⟨s', L⟩, hr, rfl⟩ := Option.map_eq_some_iff.mp hlog
  have hrun := Run.replay hupdate hr
  exact (read_consistent harea (fun name v hv => by
    simp only [mapAdd, Option.isNone_none, Bool.and_self, if_true, Function.update_apply] at hv
    split_ifs at hv
    obtain rfl := Option.some.inj hv
    decide) hrun).2.2.1 0 136 [] sampleRead [] rfl (by decide)

end Seqlock

end RsProperties
