import RsProperties.InfoTrie.ArenaBuffer

/-!
# Runs of the arena

A client of the arena allocates objects, arrays, strings and words, and writes through the checked
accessors at offsets it was given. Along every such run the allocations tile the extent from its start, in
the order they were made: their ranges are disjoint and start on word boundaries inside the `u32` offset
space. A store therefore changes one allocation only, and growing the buffer changes none, so what was
stored is read back until the same allocation is written again.
-/

namespace RsProperties

open ByteMem StateExcept ArenaBuffer

/-- An allocation: its offset and the size asked for. -/
structure Allocation where
  offset : ℕ
  size : ℕ
  deriving DecidableEq

namespace Allocation

/-- The space an allocation takes. -/
def extent (a : Allocation) : ℕ := bionicAlign a.size 4

/-- The end of the space of an allocation. -/
def stop (a : Allocation) : ℕ := a.offset + a.extent

/-- A range lies inside the space of an allocation. -/
def Covers (a : Allocation) (offset len : ℕ) : Prop := a.offset ≤ offset ∧ offset + len ≤ a.stop

/-- The spaces of two allocations do not meet. -/
def Apart (a b : Allocation) : Prop := a.stop ≤ b.offset ∨ b.stop ≤ a.offset

instance : Std.Symm Apart := ⟨fun _ _ h => Or.symm h⟩

end Allocation

/-- What a client of the arena does. -/
inductive ArenaOp
  | allocateObject (size : ℕ)
  | allocateUint32Array (length : ℕ)
  | allocateAndWriteString (string : Bytes)
  | allocateAndWriteUint32 (value : UInt32)
  | writeObject (align offset : ℕ) (value : Bytes)
  | writeUint32Array (offset : ℕ) (values : List UInt32)
  deriving DecidableEq

namespace ArenaOp

/-- Run an operation; an allocation that hands its offset out returns it. -/
def exec : ArenaOp → BufferM (Option ℕ)
  | .allocateObject size => some <$> ArenaBuffer.allocateObject size
  | .allocateUint32Array length => some <$> ArenaBuffer.allocateUint32Array length
  | .allocateAndWriteString string => some <$> ArenaBuffer.allocateAndWriteString string
  | .allocateAndWriteUint32 value => do
    ArenaBuffer.allocateAndWriteUint32 value
    return none
  | .writeObject align offset value => do
    ArenaBuffer.writeObject align offset value
    return none
  | .writeUint32Array offset values => do
    ArenaBuffer.writeUint32Array offset values
    return none

/-- The size an allocating operation asks for. -/
def requested : ArenaOp → Option ℕ
  | .allocateObject size => some size
  | .allocateUint32Array length => some (length * 4)
  | .allocateAndWriteString string => some (string.length + 1)
  | .allocateAndWriteUint32 _ => some 4
  | .writeObject _ _ _ => none
  | .writeUint32Array _ _ => none

/-- What an operation stores and where, on an arena of the given extent. -/
def stored (top : ℕ) : ArenaOp → ℕ × Bytes
  | .allocateObject _ => (top, [])
  | .allocateUint32Array _ => (top, [])
  | .allocateAndWriteString string => (top, string ++ [0])
  | .allocateAndWriteUint32 value => (top, u32le value.toNat)
  | .writeObject _ offset value => (offset, value)
  | .writeUint32Array offset values => (offset, wordBytes values)

/-- The space an operation takes. -/
def taken (op : ArenaOp) : ℕ := (op.requested.map fun n => bionicAlign n 4).getD 0

/-- The operation writes through an accessor, inside an allocation with the property `p`. -/
def WritesOnly (p : Allocation → Prop) : ArenaOp → Prop
  | .writeObject _ offset value => ∃ a, p a ∧ a.Covers offset value.length
  | .writeUint32Array offset values => ∃ a, p a ∧ a.Covers offset (wordBytes values).length
  | _ => True

end ArenaOp

/-! ### One operation -/

/-- The outcomes of an operation: a typed error that leaves no trace, or the store it stands for over an
extent that grew by the space it asked for. -/
inductive ArenaOutcome (buf : ArenaBuffer) (op : ArenaOp) :
    EStateM.Result ArenaFault ArenaBuffer (Option ℕ) → Prop
  | failed (msg : String) : ArenaOutcome buf op (.error (.error (.fileValidation msg)) buf)
  | done {r : Option ℕ} {buf' : ArenaBuffer} (hwf : Wf buf')
      (harena : buf'.toArena =
        ⟨writeBytes buf.toArena.data (op.stored buf.size).1 (op.stored buf.size).2, buf.size + op.taken⟩)
      (hin : (op.stored buf.size).1 + (op.stored buf.size).2.length ≤ buf.size + op.taken)
      (hret : ∀ off, r = some off → off = buf.size ∧ op.requested.isSome) :
      ArenaOutcome buf op (.ok r buf')

section Exec

variable {buf : ArenaBuffer}

theorem map_some_ok {x : BufferM ℕ} {off : ℕ} {buf' : ArenaBuffer} (h : x buf = .ok off buf') :
    (some <$> x) buf = .ok (some off) buf' := by
  simp [Functor.map, EStateM.map, h]

theorem map_some_error {x : BufferM ℕ} {f : ArenaFault} {buf' : ArenaBuffer}
    (h : x buf = .error f buf') : (some <$> x) buf = .error f buf' := by
  simp [Functor.map, EStateM.map, h]

/-- An allocation without a store. -/
theorem exec_allocate (h : Wf buf) {op : ArenaOp} {size : ℕ} (hreq : op.requested = some size)
    (hst : op.stored buf.size = (buf.size, [])) :
    ArenaOutcome buf op ((some <$> allocateData size) buf) := by
  rcases allocateData_spec h size with ⟨msg, hr, -⟩ | ⟨buf', hr, hwf, harena, -⟩
  · rw [map_some_error hr]
    exact .failed msg
  · rw [map_some_ok hr]
    have htaken : op.taken = bionicAlign size 4 := by rw [ArenaOp.taken, hreq]; rfl
    refine .done hwf ?_ ?_ fun off ho => ⟨(Option.some.inj ho).symm, by rw [hreq]; rfl⟩
    · rw [harena, hst, htaken]
      simp [toArena, ArenaBuffer.size]
    · rw [hst]
      simp

theorem exec_string (h : Wf buf) (string : Bytes) :
    ArenaOutcome buf (.allocateAndWriteString string)
      ((some <$> allocateAndWriteString string) buf) := by
  rcases allocateAndWriteString_spec h string with ⟨msg, hr, -⟩ | ⟨buf', hr, hwf, harena, -⟩
  · rw [map_some_error hr]
    exact .failed msg
  · have hle := le_bionicAlign_four (string.length + 1)
    rw [map_some_ok hr]
    refine .done hwf harena ?_ fun off ho => ⟨(Option.some.inj ho).symm, rfl⟩
    simp only [ArenaOp.stored, ArenaOp.taken, ArenaOp.requested, Option.map_some, Option.getD_some,
      List.length_append, List.length_singleton]
    omega

theorem exec_uint32 (h : Wf buf) (value : UInt32) :
    ArenaOutcome buf (.allocateAndWriteUint32 value)
      ((allocateAndWriteUint32 value >>= fun _ => pure none) buf) := by
  rcases allocateAndWriteUint32_spec h value with ⟨msg, hr, -⟩ | ⟨buf', hr, hwf, harena, -⟩
  · rw [bind_error hr]
    exact .failed msg
  · have hle := le_bionicAlign_four 4
    rw [bind_ok hr]
    refine .done hwf harena ?_ (by simp)
    simp only [ArenaOp.stored, ArenaOp.taken, ArenaOp.requested, Option.map_some, Option.getD_some,
      length_u32le]
    omega

/-- A write through a checked accessor: the accessor's error, or the store. -/
theorem exec_write (h : Wf buf) {op : ArenaOp} (hreq : op.requested = none) {x : BufferM Unit}
    (hx : (∃ msg, x buf = .error (.error (.fileValidation msg)) buf) ∨
      ((op.stored buf.size).1 + (op.stored buf.size).2.length ≤ buf.size ∧ x buf = .ok ()
        { buf with bytes := splice buf.bytes (op.stored buf.size).1 (op.stored buf.size).2 })) :
    ArenaOutcome buf op ((x >>= fun _ => pure none) buf) := by
  rcases hx with ⟨msg, hr⟩ | ⟨hin, hr⟩
  · rw [bind_error hr]
    exact .failed msg
  · obtain ⟨hwf, harena⟩ := h.splice hin
    have htaken : op.taken = 0 := by rw [ArenaOp.taken, hreq]; rfl
    rw [bind_ok hr]
    refine .done hwf ?_ ?_ (by simp)
    · rw [harena, htaken]
      rfl
    · rw [htaken]
      exact hin

/-- **One operation** either fails with a typed error and no trace, or stores exactly its bytes; it never
panics. -/
theorem exec_spec (h : Wf buf) (op : ArenaOp) : ArenaOutcome buf op (op.exec buf) := by
  cases op with
  | allocateObject size => exact exec_allocate h rfl rfl
  | allocateUint32Array length =>
    simp only [ArenaOp.exec, ArenaBuffer.allocateUint32Array]
    split_ifs with hov
    · exact .failed _
    · exact exec_allocate h rfl rfl
  | allocateAndWriteString string => exact exec_string h string
  | allocateAndWriteUint32 value => exact exec_uint32 h value
  | writeObject align offset value => exact exec_write h rfl (writeObject_spec h align offset value)
  | writeUint32Array offset values => exact exec_write h rfl (writeUint32Array_spec h offset values)

end Exec

/-! ### Runs -/

/-- The arena of a run and the allocations made so far. -/
structure ArenaState where
  buf : ArenaBuffer
  allocs : List Allocation

namespace ArenaState

def start : ArenaState where
  buf := ArenaBuffer.new
  allocs := []

/-- One operation of the client; a successful allocation is remembered. -/
def step (s : ArenaState) (op : ArenaOp) : ArenaState :=
  match op.exec s.buf with
  | .ok _ buf => ⟨buf, s.allocs ++ (op.requested.map fun n => ⟨s.buf.size, n⟩).toList⟩
  | .error _ buf => ⟨buf, s.allocs⟩

/-- A client's step: it writes only inside allocations it was given, and only those with the property `p`. -/
def Client (p : Allocation → Prop) (s : ArenaState) (op : ArenaOp) (s' : ArenaState) : Prop :=
  op.WritesOnly (fun a => a ∈ s.allocs ∧ p a) ∧ s' = s.step op

/-- The invariant of a run: the allocations are disjoint, start on word boundaries and tile the extent. -/
structure Inv (s : ArenaState) : Prop where
  wf : Wf s.buf
  aligned : ∀ a ∈ s.allocs, a.offset % 4 = 0
  inside : ∀ a ∈ s.allocs, a.stop ≤ s.buf.size
  apart : s.allocs.Pairwise Allocation.Apart
  tiled : ∀ i, i < s.buf.size → ∃ a ∈ s.allocs, a.offset ≤ i ∧ i < a.stop

theorem inv_start : Inv start :=
  ⟨wf_new, by simp [start], by simp [start], by simp [start], fun i hi => absurd hi (Nat.not_lt_zero i)⟩

variable {s : ArenaState}

/-- What a step does: nothing, or one store and at most one allocation at the end of the extent. -/
theorem Inv.step_cases (h : Inv s) (op : ArenaOp) :
    s.step op = s ∨ Wf (s.step op).buf ∧
      (s.step op).buf.toArena = ⟨writeBytes s.buf.toArena.data (op.stored s.buf.size).1
        (op.stored s.buf.size).2, s.buf.size + op.taken⟩ ∧
      (s.step op).allocs = s.allocs ++ (op.requested.map fun n => ⟨s.buf.size, n⟩).toList := by
  have hspec := exec_spec h.wf op
  unfold step
  generalize op.exec s.buf = res at hspec ⊢
  cases hspec with
  | failed msg => exact .inl rfl
  | done hwf harena hin hret => exact .inr ⟨hwf, harena, rfl⟩

/-- **Every operation keeps the invariant.** -/
theorem Inv.step (h : Inv s) (op : ArenaOp) : Inv (s.step op) := by
  rcases h.step_cases op with heq | ⟨hwf, harena, hallocs⟩
  · rwa [heq]
  have hsize : (s.step op).buf.size = s.buf.size + op.taken := congrArg TrieNodeArena.size harena
  cases hreq : op.requested with
  | none =>
    have htaken : op.taken = 0 := by rw [ArenaOp.taken, hreq]; rfl
    rw [hreq, Option.map_none, Option.toList_none, List.append_nil] at hallocs
    rw [htaken, Nat.add_zero] at hsize
    refine ⟨hwf, ?_, ?_, ?_, ?_⟩
    · rw [hallocs]
      exact h.aligned
    · rw [hallocs, hsize]
      exact h.inside
    · rw [hallocs]
      exact h.apart
    · rw [hallocs, hsize]
      exact h.tiled
  | some n =>
    have htaken : op.taken = bionicAlign n 4 := by rw [ArenaOp.taken, hreq]; rfl
    have hstop : (⟨s.buf.size, n⟩ : Allocation).stop = s.buf.size + bionicAlign n 4 := rfl
    rw [hreq, Option.map_some, Option.toList_some] at hallocs
    refine ⟨hwf, ?_, ?_, ?_, ?_⟩
    · rw [hallocs]
      intro a ha
      rcases List.mem_append.mp ha with ha | ha
      · exact h.aligned a ha
      · rw [List.mem_singleton.mp ha]
        exact h.wf.aligned
    · rw [hallocs, hsize]
      intro a ha
      rcases List.mem_append.mp ha with ha | ha
      · exact (h.inside a ha).trans (Nat.le_add_right _ _)
      · rw [List.mem_singleton.mp ha, hstop, htaken]
    · rw [hallocs, List.pairwise_append]
      refine ⟨h.apart, List.pairwise_singleton _ _, fun a ha b hb => .inl ?_⟩
      rw [List.mem_singleton.mp hb]
      exact h.inside a ha
    · rw [hallocs, hsize]
      intro i hi
      rcases Nat.lt_or_ge i s.buf.size with hlt | hge
      · obtain ⟨a, ha, hcov⟩ := h.tiled i hlt
        exact ⟨a, List.mem_append_left _ ha, hcov⟩
      · exact ⟨_, List.mem_append_right _ (List.mem_singleton_self _), hge, by rw [hstop]; omega⟩

/-- The bytes of an allocation survive a step that writes only other allocations. -/
theorem Inv.step_frame (h : Inv s) {a : Allocation} (ha : a ∈ s.allocs) {op : ArenaOp}
    (hop : op.WritesOnly fun b => b ∈ s.allocs ∧ b ≠ a) :
    SameOn (s.step op).buf.toArena.data s.buf.toArena.data a.offset a.stop ∧ a ∈ (s.step op).allocs := by
  rcases h.step_cases op with heq | ⟨-, harena, hallocs⟩
  · rw [heq]
    exact ⟨.refl _ _ _, ha⟩
  refine ⟨?_, by rw [hallocs]; exact List.mem_append_left _ ha⟩
  rw [harena]
  have hin := h.inside a ha
  -- a fresh allocation lies behind the extent, a write inside another allocation
  have hother : ∀ b : Allocation, (b ∈ s.allocs ∧ b ≠ a) → ∀ {offset len : ℕ}, b.Covers offset len →
      a.stop ≤ offset ∨ offset + len ≤ a.offset := fun b hb offset len hcov => by
    rcases h.apart.forall hb.1 ha hb.2 with hba | hab
    · exact .inr (hcov.2.trans hba)
    · exact .inl (hab.trans hcov.1)
  refine sameOn_writeBytes ?_
  cases op with
  | writeObject align offset value =>
    obtain ⟨b, hb, hcov⟩ := hop
    exact hother b hb hcov
  | writeUint32Array offset values =>
    obtain ⟨b, hb, hcov⟩ := hop
    exact hother b hb hcov
  | _ => exact .inl hin

/-- The invariant along a run from any state that has it, and the bytes of an allocation no step of the
run writes. -/
theorem Inv.run_frame (h : Inv s) {a : Allocation} (ha : a ∈ s.allocs) {H : List ArenaOp}
    {s' : ArenaState} (hrun : Trace.Run (· = s) (Client (· ≠ a)) H s') :
    Inv s' ∧ a ∈ s'.allocs ∧
      SameOn s'.buf.toArena.data s.buf.toArena.data a.offset a.stop := by
  induction hrun with
  | start hs =>
    subst hs
    exact ⟨h, ha, .refl _ _ _⟩
  | snoc _ hstep ih =>
    obtain ⟨hinv, hmem, hsame⟩ := ih
    obtain ⟨hop, rfl⟩ := hstep
    obtain ⟨hframe, hmem'⟩ := hinv.step_frame hmem hop
    exact ⟨hinv.step _, hmem', hframe.trans hsame⟩

theorem inv_of_run {H : List ArenaOp} {s : ArenaState}
    (h : Trace.Run (· = start) (Client fun _ => True) H s) : Inv s := by
  induction h with
  | start hs =>
    subst hs
    exact inv_start
  | snoc _ hstep ih =>
    obtain ⟨-, rfl⟩ := hstep
    exact ih.step _

/-! ### Non-interference -/

/-- The allocations of an arena do not interfere. -/
structure Separate (s : ArenaState) : Prop where
  /-- Offsets are word offsets inside `u32`. -/
  offsets : ∀ a ∈ s.allocs, a.offset % 4 = 0 ∧ a.offset < 2 ^ 32
  apart : s.allocs.Pairwise Allocation.Apart
  /-- A failed operation is a typed error and leaves no trace. -/
  typed : ∀ op f buf', ArenaOp.exec op s.buf = .error f buf' →
    (∃ msg, f = .error (.fileValidation msg)) ∧ buf' = s.buf
  /-- An offset that is handed out is that of a new allocation. -/
  handed : ∀ op off buf', ArenaOp.exec op s.buf = .ok (some off) buf' →
    ∃ n, op.requested = some n ∧ (s.step op).allocs = s.allocs ++ [⟨off, n⟩]
  /-- What an operation stores in an allocation is read back until that allocation is written again. -/
  readBack : ∀ op r buf', ArenaOp.exec op s.buf = .ok r buf' → ∀ a ∈ (s.step op).allocs,
    a.Covers (op.stored s.buf.size).1 (op.stored s.buf.size).2.length →
    ∀ H s', Trace.Run (· = s.step op) (Client (· ≠ a)) H s' →
      getObject (op.stored s.buf.size).2.length 1 (op.stored s.buf.size).1 s'.buf =
        .ok (op.stored s.buf.size).2 s'.buf
  /-- An aligned access inside an allocation succeeds, with bytes that operations on other allocations
  keep. -/
  object : ∀ a ∈ s.allocs, ∀ size align offset, a.Covers offset size → align ∣ 4 → offset % align = 0 →
    ∃ v, ∀ H s', Trace.Run (· = s) (Client (· ≠ a)) H s' → getObject size align offset s'.buf = .ok v s'.buf
  array : ∀ a ∈ s.allocs, ∀ offset len, a.Covers offset (len * 4) → offset % 4 = 0 →
    ∃ v, ∀ H s', Trace.Run (· = s) (Client (· ≠ a)) H s' → uint32Array offset len s'.buf = .ok v s'.buf
  /-- An access past the extent fails, also inside the slack of the buffer. -/
  objectPast : ∀ size align offset, s.buf.size < offset + size →
    ∃ msg, getObject size align offset s.buf = .error (.error (.fileValidation msg)) s.buf
  arrayPast : ∀ offset len, s.buf.size < offset + len * 4 →
    ∃ msg, uint32Array offset len s.buf = .error (.error (.fileValidation msg)) s.buf
  /-- The image is the allocated extent, which the allocations tile. -/
  image : ∃ data, s.buf.intoData = some data ∧ data.length = s.buf.size ∧
    getObject s.buf.size 1 0 s.buf = .ok data s.buf
  tiled : ∀ i, i < s.buf.size → ∃ a ∈ s.allocs, a.offset ≤ i ∧ i < a.stop

/-- What a successful step stored is in the memory behind it. -/
theorem Inv.holds_stored (h : Inv s) {op : ArenaOp} {r : Option ℕ} {buf' : ArenaBuffer}
    (hr : op.exec s.buf = .ok r buf') :
    Holds (s.step op).buf.toArena.data (op.stored s.buf.size).1 (op.stored s.buf.size).2 := by
  have hspec := exec_spec h.wf op
  rw [hr] at hspec
  cases hspec with
  | done hwf harena hin hret =>
    have hbuf : (s.step op).buf = buf' := by rw [ArenaState.step, hr]
    rw [hbuf, harena]
    exact holds_writeBytes _ _ _

theorem Inv.intoData_eq (h : Inv s) :
    s.buf.intoData = some (slice s.buf.toArena.data 0 s.buf.size) := by
  have hcov := h.wf.covered
  have htake := @take_drop_eq_slice s.buf 0 s.buf.size (by rw [Nat.zero_add]; exact hcov)
  rw [intoData, if_neg (Nat.not_lt.mpr hcov), ← htake]
  rfl

theorem Inv.separate (h : Inv s) : Separate s where
  offsets a ha := by
    have hin := h.inside a ha
    have hle : a.offset ≤ a.stop := Nat.le_add_right _ _
    exact ⟨h.aligned a ha, lt_of_le_of_lt (hle.trans hin) h.wf.lt⟩
  apart := h.apart
  typed op f buf' hr := by
    have hspec := exec_spec h.wf op
    rw [hr] at hspec
    cases hspec with
    | failed msg => exact ⟨⟨msg, rfl⟩, rfl⟩
  handed op off buf' hr := by
    have hspec := exec_spec h.wf op
    have hallocs : (s.step op).allocs =
        s.allocs ++ (op.requested.map fun n => ⟨s.buf.size, n⟩).toList := by rw [ArenaState.step, hr]
    rw [hr] at hspec
    cases hspec with
    | done hwf harena hin hret =>
      obtain ⟨rfl, hsome⟩ := hret off rfl
      obtain ⟨n, hn⟩ := Option.isSome_iff_exists.mp hsome
      exact ⟨n, hn, by rw [hallocs, hn]; rfl⟩
  readBack op r buf' hr a ha hcov H s' hrun := by
    obtain ⟨hinv, hmem, hsame⟩ := (h.step op).run_frame ha hrun
    have hholds := (h.holds_stored hr).congr (hsame.symm.mono hcov.1 hcov.2)
    rw [getObject_eq_ok hinv.wf (hcov.2.trans (hinv.inside a hmem)) (Nat.mod_one _),
      slice_eq_of_holds hholds]
  object a ha size align offset hcov _ hal := by
    refine ⟨slice s.buf.toArena.data offset size, fun H s' hrun => ?_⟩
    obtain ⟨hinv, hmem, hsame⟩ := h.run_frame ha hrun
    rw [getObject_eq_ok hinv.wf (hcov.2.trans (hinv.inside a hmem)) hal,
      slice_congr (hsame.mono hcov.1 hcov.2)]
  array a ha offset len hcov hal := by
    refine ⟨slice s.buf.toArena.data offset (len * 4), fun H s' hrun => ?_⟩
    obtain ⟨hinv, hmem, hsame⟩ := h.run_frame ha hrun
    rw [uint32Array_eq_ok hinv.wf (hcov.2.trans (hinv.inside a hmem)) hal,
      slice_congr (hsame.mono hcov.1 hcov.2)]
  objectPast size align offset hpast := getObject_past h.wf hpast
  arrayPast offset len hpast := uint32Array_past hpast
  image := by
    refine ⟨_, h.intoData_eq, length_slice _ _ _, ?_⟩
    rw [getObject_eq_ok h.wf (by rw [Nat.zero_add]; exact le_rfl) (Nat.mod_one _)]
  tiled := h.tiled

/-- **Arena allocations never interfere**, in every state of every run of a client. -/
theorem arena_separate {H : List ArenaOp} {s : ArenaState}
    (h : Trace.Run (· = start) (Client fun _ => True) H s) : Separate s := (inv_of_run h).separate

/-- A run that allocates, grows the buffer and writes back into its first allocation. -/
theorem arena_separate_rewrite :
    Separate ((((start.step (.allocateObject 6)).step (.allocateAndWriteString (ascii "u:r"))).step
      (.allocateUint32Array 0)).step (.writeObject 4 0 [1, 2, 3, 4])) := by
  have step : ∀ {H : List ArenaOp} {s : ArenaState} (op : ArenaOp),
      Trace.Run (· = start) (Client fun _ => True) H s →
      op.WritesOnly (fun a => a ∈ s.allocs ∧ True) →
      Trace.Run (· = start) (Client fun _ => True) (H ++ [op]) (s.step op) :=
    fun op hrun hop => hrun.snoc ⟨hop, rfl⟩
  have h1 := step (.allocateObject 6) (.start rfl) trivial
  have h2 := step (.allocateAndWriteString (ascii "u:r")) h1 trivial
  have h3 := step (.allocateUint32Array 0) h2 trivial
  exact arena_separate (step (.writeObject 4 0 [1, 2, 3, 4]) h3
    ⟨⟨0, 6⟩, ⟨by decide +kernel, trivial⟩, by decide, by decide⟩)

end ArenaState

end RsProperties
