import RsProperties.Seqlock.Writer

/-!
# The iterations of a reader

The invariant of the readers and what it comes to (`SysInv.check_value`). An iteration of a reader is described by the cut of the
history at its first serial load: `Snap` says which value the entry held there and what the bytes
gathered so far are worth. If no update of the entry has completed since, and the entry is still
clean (or, for a dirty serial, still in the same update), they are those of that value; otherwise
they may be anything, but then the second serial load will disagree, since the low 16 bits of the
serial count the updates modulo `2 ^ 15`.
-/

namespace RsProperties

open ByteMem PropertyAreaMap PropertyInfo Trace

namespace Seqlock

/-! ### Values and counters along a history -/

section History

variable (pa : PropertyAreaMap)

/-- The values the entries hold after a history. -/
def vals (H : List Event) : ℕ → Bytes := fun off => valueAfter pa off H

/-- The counters of the entries after a history: each commit adds 2. -/
def counts (H : List Event) : ℕ → ℕ := fun off =>
  serial pa.mmap.data (off + 128) + 2 * commits off H

theorem vals_snoc (H : List Event) (x : Event) :
    vals pa (H ++ [x]) = valuesAfter (vals pa H) x := by
  funext off
  simp only [vals, valueAfter, valuesAfter, List.foldl_append, List.foldl_cons, List.foldl_nil]

theorem commits_append (off : ℕ) (H H' : List Event) :
    commits off (H ++ H') = commits off H + commits off H' := List.countP_append

theorem counts_snoc (H : List Event) (x : Event) :
    counts pa (H ++ [x]) = countersAfter (counts pa H) x := by
  funext off
  rw [counts, countersAfter, counts, commits_append]
  cases hx : isCommit off x
  · simp [commits, hx]
  · simp [commits, hx]
    omega

/-- Without a commit the value stays. -/
theorem valueAfter_append {off : ℕ} {H' : List Event} (h : commits off H' = 0) (H : List Event) :
    valueAfter pa off (H ++ H') = valueAfter pa off H := by
  induction H' using List.reverseRecOn with
  | nil => rw [List.append_nil]
  | append_singleton H' x ih =>
    rw [commits_append] at h
    have hx : isCommit off x = false := by
      cases hx : isCommit off x
      · rfl
      · simp [commits, hx] at h
    rw [← List.append_assoc, valueAfter, List.foldl_append, ← valueAfter, ih (by omega)]
    cases x with
    | commit off' value =>
      have hne : off' ≠ off := by simpa [isCommit] using hx
      exact if_neg hne
    | _ => rfl

end History

/-! ### An iteration of a reader -/

section Snap

variable {pa : PropertyAreaMap} {H : List Event} {w : Writer} {r off s : ℕ} {P : Bytes → Prop}

/-- The iteration that began with the reader's last serial load, which returned `s`; `P` is what is
known of the value the entry held there, as long as the bytes read since belong to it. -/
structure SnapAt (pa : PropertyAreaMap) (H : List Event) (w : Writer) (r off s : ℕ)
    (P : Bytes → Prop) (H₁ H₂ : List Event) (S : ℕ) : Prop where
  split : SplitLast (fun x => isLoad r x = true) H H₁ (.load r off) H₂
  good : GoodValue (valueAfter pa off H₁)
  clean : CleanSerial S (valueAfter pa off H₁).length
  count : S % 2 ^ 16 = counts pa H₁ off % 2 ^ 16
  known : (s = S ∧ (commits off H₂ = 0 → w.dirtyAt ≠ some off → P (valueAfter pa off H₁))) ∨
    (s = S + 1 ∧ (commits off H₂ = 0 → w.dirtyAt = some off ∧ P (valueAfter pa off H₁)))

def Snap (pa : PropertyAreaMap) (H : List Event) (w : Writer) (r off s : ℕ) (P : Bytes → Prop) :
    Prop := ∃ H₁ H₂ S, SnapAt pa H w r off s P H₁ H₂ S

/-- A step of someone else keeps the iteration. -/
theorem Snap.step (h : Snap pa H w r off s P) {w' : Writer} {x : Event} (hx : isLoad r x = false)
    (hd : isCommit off x = true ∨ (w.dirtyAt = some off → w'.dirtyAt = some off)) :
    Snap pa (H ++ [x]) w' r off s P := by
  obtain ⟨H₁, H₂, S, hs⟩ := h
  refine ⟨H₁, H₂ ++ [x], S, hs.split.snoc (by simp [hx]), hs.good, hs.clean, hs.count, ?_⟩
  have hc : commits off (H₂ ++ [x]) = 0 → commits off H₂ = 0 ∧ isCommit off x = false := by
    intro h0
    rw [commits_append] at h0
    refine ⟨by omega, ?_⟩
    cases hcx : isCommit off x
    · rfl
    · simp [commits, hcx] at h0
  have keep : commits off (H₂ ++ [x]) = 0 → w.dirtyAt = some off → w'.dirtyAt = some off :=
    fun h0 => hd.resolve_left (by simp [(hc h0).2])
  refine hs.known.imp ?_ ?_
  · rintro ⟨hS, hp⟩
    exact ⟨hS, fun h0 hn => hp (hc h0).1 fun hdirty => hn (keep h0 hdirty)⟩
  · rintro ⟨hS, hp⟩
    exact ⟨hS, fun h0 => ⟨keep h0 (hp (hc h0).1).1, (hp (hc h0).1).2⟩⟩

/-- Learning more about the bytes, from what the memory holds while they belong to the value. -/
theorem Snap.imp (h : Snap pa H w r off s P) {Q : Bytes → Prop}
    (hq : ∀ u, GoodValue u → (s % 2 = 1 → backupLen s = u.length) →
      (valueAfter pa off H = u → (s % 2 = 1 → w.dirtyAt = some off) →
        (s % 2 = 0 → w.dirtyAt ≠ some off) → P u → Q u)) :
    Snap pa H w r off s Q := by
  obtain ⟨H₁, H₂, S, hs⟩ := h
  have heven := hs.clean.even
  have hlen := hs.clean.len_eq
  have hgood := hs.good.len
  rw [propValueMax] at hgood
  have hval : commits off H₂ = 0 → valueAfter pa off H = valueAfter pa off H₁ := by
    intro h0
    rw [hs.split.eq]
    refine valueAfter_append pa ?_ H₁
    simpa [commits, isCommit] using h0
  refine ⟨H₁, H₂, S, hs.split, hs.good, hs.clean, hs.count, hs.known.imp ?_ ?_⟩
  · rintro ⟨rfl, hp⟩
    exact ⟨rfl, fun h0 hn => hq _ hs.good (fun h1 => by omega) (hval h0) (fun h1 => by omega)
      (fun _ => hn) (hp h0 hn)⟩
  · rintro ⟨rfl, hp⟩
    refine ⟨rfl, fun h0 => ⟨(hp h0).1, hq _ hs.good (fun _ => ?_) (hval h0) (fun _ => (hp h0).1)
      (fun h1 => by omega) (hp h0).2⟩⟩
    rw [backupLen, Nat.shiftRight_eq_div_pow, propValueMax]
    omega

end Snap

/-! ### The invariant of a reader -/

/-- The out-of-line bytes a reader of the entry has resolved. -/
def Resolved (g : Shape) (off : ℕ) : Option Bytes → Prop
  | none => IsShort g off
  | some v => IsLong g off v

/-- What the control state of the reader `r` says about the history. -/
def ReaderOk (pa : PropertyAreaMap) (g : Shape) (H : List Event) (w : Writer) (r : ℕ) :
    Reader → Prop
  | .idle => True
  | .start off => ∃ n e, g.entry n = some e ∧ e.off = off
  | .load off long => Resolved g off long
  | .copy off long s buf => IsShort g off ∧ Resolved g off long ∧ s % 2 = 1 ∧
    Snap pa H w r off s fun u => buf <+: u ∧ buf.length < u.length
  | .scan off s buf => IsShort g off ∧ s % 2 = 0 ∧ Snap pa H w r off s fun u => buf <+: u
  | .check off long s buf => Resolved g off long ∧
    (IsShort g off ∧ Snap pa H w r off s (fun u => buf = u) ∨
      IsLong g off buf ∧ ∃ H₁ H₂,
        SplitLast (fun x => isLoad r x = true) H H₁ (.load r off) H₂)
  | .called => True

/-- A step of someone else keeps a reader's invariant. -/
theorem ReaderOk.step {pa : PropertyAreaMap} {g : Shape} {H : List Event} {w w' : Writer} {r : ℕ}
    {x : Event} {rd : Reader} (h : ReaderOk pa g H w r rd) (hx : isLoad r x = false)
    (hd : ∀ off, isCommit off x = true ∨ (w.dirtyAt = some off → w'.dirtyAt = some off)) :
    ReaderOk pa g (H ++ [x]) w' r rd := by
  cases rd with
  | idle => trivial
  | start off => exact h
  | load off long => exact h
  | copy off long s buf => exact ⟨h.1, h.2.1, h.2.2.1, h.2.2.2.step hx (hd off)⟩
  | scan off s buf => exact ⟨h.1, h.2.1, h.2.2.step hx (hd off)⟩
  | check off long s buf =>
    refine ⟨h.1, h.2.imp (fun h' => ⟨h'.1, h'.2.step hx (hd off)⟩) ?_⟩
    rintro ⟨hl, H₁, H₂, hs⟩
    exact ⟨hl, H₁, H₂ ++ [x], hs.snoc (by simp [hx])⟩
  | called => trivial

/-- The invariant of the system. -/
structure SysInv (pa : PropertyAreaMap) (g : Shape) (H : List Event) (st : State) : Prop where
  header : SameOn pa.mmap.data st.mem 0 128
  writer : WriterInv g (vals pa H) (counts pa H) st.mem st.writer
  reader : ∀ r, ReaderOk pa g H st.writer r (st.reader r)
  long : ∀ off v, IsLong g off v → commits off H = 0

/-- The serial word of a short entry, clean or dirty. -/
theorem WriterInv.serial_cases {g : Shape} {v : ℕ → Bytes} {k : ℕ → ℕ} {m : Mem} {w : Writer}
    (h : WriterInv g v k m w) {off : ℕ} (hs : IsShort g off) :
    ∃ S, CleanSerial S (v off).length ∧ S % 2 ^ 16 = k off % 2 ^ 16 ∧
      ((w.dirtyAt ≠ some off ∧ serial m (off + 128) = S ∧ Holds m (off + 132) (v off ++ [0])) ∨
       (w.dirtyAt = some off ∧ serial m (off + 128) = S + 1 ∧ Holds m 148 (v off))) := by
  by_cases hd : w.dirtyAt = some off
  · have key : ∃ current, Busy m off (v off) (k off) current := by
      cases w with
      | store off' value current i =>
        obtain rfl : off' = off := Option.some.inj hd
        exact ⟨current, h.phase.2.2.1⟩
      | publish off' value current =>
        obtain rfl : off' = off := Option.some.inj hd
        exact ⟨current, h.phase.2.2.1⟩
      | _ => cases hd
    obtain ⟨current, hb⟩ := key
    exact ⟨current, hb.clean, hb.count, .inr ⟨hd, hb.serial_eq, hb.backup⟩⟩
  · have hq := h.quiet off hs hd
    exact ⟨_, hq.clean, hq.count, .inl ⟨hd, rfl, hq.slot⟩⟩

/-- No short entry ever shows the long flag. -/
theorem WriterInv.isLong_short {g : Shape} {v : ℕ → Bytes} {k : ℕ → ℕ} {m : Mem} {w : Writer}
    (h : WriterInv g v k m w) {off : ℕ} (hs : IsShort g off) : isLong m (off + 128) = false := by
  obtain ⟨S, hc, -, ⟨-, hser, -⟩ | ⟨-, hser, -⟩⟩ := h.serial_cases hs
  · rw [isLong, hser, hc.not_long]
    rfl
  · have he := hc.even
    have hb := hc.short
    have h16 : (S + 1) / 2 ^ 16 % 2 = 0 := by omega
    rw [isLong, hser, and_longFlag, h16]
    rfl

/-- A dirty serial announces the length of the backup copy. -/
theorem backupLen_succ {S : ℕ} {v : Bytes} (hc : CleanSerial S v.length) (hv : GoodValue v) :
    backupLen (S + 1) = v.length := by
  have he := hc.even
  have hl := hc.len_eq
  have hlen := hv.len
  rw [propValueMax] at hlen
  rw [backupLen, Nat.shiftRight_eq_div_pow, propValueMax]
  omega

section ReaderSteps

variable {pa : PropertyAreaMap} {g : Shape} {H : List Event} {st : State} {r : ℕ}

/-- Resolving a long entry yields its value. -/
theorem SysInv.longPropertyValue_eq (h : SysInv pa g H st) (hinv : AreaInv pa g) {n : ℕ}
    {e : Entry} (he : g.entry n = some e) (hl : propValueMax ≤ e.value.length) :
    isLong st.mem (e.off + 128) = true ∧
      (pa.withData st.mem).longPropertyValue e.off = .ok e.value := by
  have hat := h.writer.long n e he hl
  have hhigh := hinv.basic.used_high
  have hstop := hinv.wf.layout.high _ (hinv.wf.long_block n e he hl)
  simp only [Block.stop, Obj.extent] at hstop
  refine ⟨isLong_of_long (hat.long hl).1, ?_⟩
  exact longPropertyValue_of_entryAt
    (hinv.basic.withData_of_sameOn (h.header.mono le_rfl (by omega)))
    (hinv.entry_bounds he).1 hat (hinv.wf.nul_notMem_joinDot (hinv.wf.entry_node n e he).1)
    (hinv.wf.entry_value n e he) hl (by omega)

/-- `is_long` and the resolution of the long bytes. -/
theorem SysInv.start_step (h : SysInv pa g H st) (hinv : AreaInv pa g) {off : ℕ}
    (hr : ReaderOk pa g H st.writer r (.start off)) :
    ∃ long, readerStep pa st.mem r (.start off) = (.load off long, .tau) ∧
      Resolved g off long := by
  obtain ⟨n, e, he, rfl⟩ := hr
  by_cases hl : propValueMax ≤ e.value.length
  · obtain ⟨hlong, hval⟩ := h.longPropertyValue_eq hinv he hl
    refine ⟨some e.value, ?_, n, e, he, rfl, rfl, hl⟩
    simp only [readerStep]
    rw [if_pos hlong, hval]
  · have hs : IsShort g e.off := ⟨n, e, he, rfl, by omega⟩
    refine ⟨none, ?_, hs⟩
    simp only [readerStep]
    rw [if_neg (by simp [h.writer.isLong_short hs])]

/-- The first serial load of an iteration. -/
theorem SysInv.load_step (h : SysInv pa g H st) {off : ℕ} {long : Option Bytes}
    (hr : Resolved g off long) :
    ReaderOk pa g (H ++ [.load r off]) st.writer r
      (afterLoad off long (serial st.mem (off + 128))) := by
  have hsplit : SplitLast (fun x => isLoad r x = true) (H ++ [.load r off]) H (.load r off) [] :=
    .mk_snoc (by simp [isLoad])
  rw [afterLoad.eq_def, serialDirty_eq]
  cases long with
  | some v =>
    obtain ⟨n, e, he, rfl, rfl, hl⟩ := hr
    have hser := ((h.writer.long n e he hl).long hl).1
    have h0 : ¬ decide (serial st.mem (e.off + 128) % 2 = 1) = true := by
      rw [hser]
      decide
    rw [if_neg h0]
    exact ⟨⟨n, e, he, rfl, rfl, hl⟩, .inr ⟨⟨n, e, he, rfl, rfl, hl⟩, H, [], hsplit⟩⟩
  | none =>
    have hs : IsShort g off := hr
    have hgood := h.writer.good off hs
    obtain ⟨S, hc, hk, ⟨hd, hser, -⟩ | ⟨hd, hser, -⟩⟩ := h.writer.serial_cases hs
    · have he := hc.even
      rw [hser, if_neg (by simp [he])]
      exact ⟨hs, he, H, [], S, hsplit, hgood, hc, hk, .inl ⟨rfl, fun _ _ => List.nil_prefix⟩⟩
    · have he := hc.even
      have hlen := backupLen_succ hc hgood
      rw [hser, if_pos (by simp; omega), hlen]
      have snap : ∀ {P : Bytes → Prop}, P (valueAfter pa off H) →
          Snap pa (H ++ [.load r off]) st.writer r off (S + 1) P := fun hp =>
        ⟨H, [], S, hsplit, hgood, hc, hk, .inr ⟨rfl, fun _ => ⟨hd, hp⟩⟩⟩
      split_ifs with h0
      · exact ⟨hs, .inl ⟨hs, snap (List.eq_nil_of_length_eq_zero h0).symm⟩⟩
      · refine ⟨hs, hs, by omega, snap ⟨List.nil_prefix, ?_⟩⟩
        exact Nat.pos_of_ne_zero h0

/-- One byte of the backup. -/
theorem SysInv.copy_step (h : SysInv pa g H st) {off s : ℕ} {long : Option Bytes} {buf : Bytes}
    (hr : ReaderOk pa g H st.writer r (.copy off long s buf)) :
    (readerStep pa st.mem r (.copy off long s buf)).2 = .tau ∧
      ReaderOk pa g H st.writer r (readerStep pa st.mem r (.copy off long s buf)).1 := by
  obtain ⟨hs, hres, hodd, hsnap⟩ := hr
  have hnext := hsnap.imp (Q := fun u => buf ++ [backupByte st.mem buf.length] <+: u ∧
      buf.length + 1 ≤ u.length) fun u _ _ hval hdirty _ hp => by
    obtain ⟨S, -, -, ⟨hd, -⟩ | ⟨-, -, hb⟩⟩ := h.writer.serial_cases hs
    · exact absurd (hdirty hodd) hd
    · have hb' : Holds st.mem 148 u := hval ▸ hb
      exact ⟨prefix_snoc hb' hp.1 hp.2, hp.2⟩
  simp only [readerStep, List.length_append, List.length_singleton]
  split_ifs with hlt
  · refine ⟨rfl, hs, hres, hodd, hnext.imp fun u _ hlen _ _ _ hp => ⟨hp.1, ?_⟩⟩
    rw [List.length_append, List.length_singleton, ← hlen hodd]
    exact hlt
  · refine ⟨rfl, hres, .inl ⟨hs, hnext.imp fun u _ hlen _ _ _ hp => hp.1.eq_of_length ?_⟩⟩
    rw [List.length_append, List.length_singleton]
    have := hlen hodd
    omega

/-- One byte of the value slot. -/
theorem SysInv.scan_step (h : SysInv pa g H st) {off s : ℕ} {buf : Bytes}
    (hr : ReaderOk pa g H st.writer r (.scan off s buf)) :
    (readerStep pa st.mem r (.scan off s buf)).2 = .tau ∧
      ReaderOk pa g H st.writer r (readerStep pa st.mem r (.scan off s buf)).1 := by
  obtain ⟨hs, heven, hsnap⟩ := hr
  have hnext := hsnap.imp (Q := fun u => (slotByte st.mem off buf.length = 0 ∧ buf = u) ∨
      (slotByte st.mem off buf.length ≠ 0 ∧ buf ++ [slotByte st.mem off buf.length] <+: u))
      fun u hgood _ hval _ hclean hp => by
    obtain ⟨S, -, -, ⟨-, -, hslot⟩ | ⟨hd, -⟩⟩ := h.writer.serial_cases hs
    · have hslot' : Holds st.mem (off + 132) (u ++ [0]) := hval ▸ hslot
      exact scan_next hslot' hgood.nul hp
    · exact absurd hd (hclean heven)
  simp only [readerStep]
  split_ifs with hb hlt
  · refine ⟨rfl, hs, .inl ⟨hs, hnext.imp fun u _ _ _ _ _ hp => ?_⟩⟩
    exact (hp.resolve_right fun h' => h'.1 hb).2
  · refine ⟨rfl, hs, heven, hnext.imp fun u _ _ _ _ _ hp => ?_⟩
    exact (hp.resolve_left fun h' => hb h'.1).2
  · refine ⟨rfl, hs, .inl ⟨hs, hnext.imp fun u hgood _ _ _ _ hp => ?_⟩⟩
    have hle := (hp.resolve_left fun h' => hb h'.1).2.length_le
    have hlen := hgood.len
    rw [List.length_append, List.length_singleton] at hle
    omega

end ReaderSteps

/-! ### The invariant of the system -/

section System

variable {pa : PropertyAreaMap} {g : Shape} {H : List Event} {st st' : State} {x : Event}

theorem initialValue_eq (hinv : AreaInv pa g) {n : ℕ} {e : Entry} (he : g.entry n = some e) :
    initialValue pa e.off = e.value := by
  rw [initialValue, hinv.propertyValueBytes_eq he]

/-- A quiescent area satisfies the invariant. -/
theorem sysInv_init (hinv : AreaInv pa g)
    (hutf8 : ∀ n e, g.entry n = some e → Utf8.valid e.value = true) (h : Init pa st) :
    SysInv pa g [] st := by
  obtain ⟨hmem, hw, hr⟩ := h
  refine ⟨hmem ▸ .refl _ _ _, ?_, fun r => by rw [hr r]; trivial, fun _ _ _ => rfl⟩
  · rw [hmem, hw]
    refine ⟨?_, ?_, fun n e he _ => hinv.rep.entry n e he, trivial⟩
    · rintro off ⟨n, e, he, rfl, hl⟩
      have hv : vals pa [] e.off = e.value := initialValue_eq hinv he
      rw [hv]
      exact ⟨hinv.wf.entry_value n e he, hl, hutf8 n e he⟩
    · rintro off ⟨n, e, he, rfl, hl⟩ -
      have hv : vals pa [] e.off = e.value := initialValue_eq hinv he
      obtain ⟨hc, hslot⟩ := (hinv.rep.entry n e he).short hl
      rw [hv]
      exact ⟨hc, rfl, hslot⟩

/-- The writer stores behind the area header only. -/
theorem writerStep_header (m : Mem) (w : Writer) : SameOn m (writerStep m w).1 0 128 := by
  cases w with
  | idle => exact .refl _ _ _
  | check off value =>
    simp only [writerStep]
    split_ifs <;> exact .refl _ _ _
  | scan off value buf =>
    simp only [writerStep]
    split_ifs <;> exact .refl _ _ _
  | backup off value old i =>
    simp only [writerStep]
    split <;> exact (sameOn_writeBytes (.inl (by omega))).symm
  | loadSerial off value =>
    simp only [writerStep]
    split_ifs <;> exact .refl _ _ _
  | setDirty off value current => exact (sameOn_writeU32 (.inl (by omega))).symm
  | store off value current i =>
    simp only [writerStep]
    split <;> exact (sameOn_writeBytes (.inl (by omega))).symm
  | publish off value current => exact (sameOn_writeU32 (.inl (by omega))).symm

/-- The writer's event is silent or the commit of the entry it was publishing. -/
theorem writerStep_event (m : Mem) (w : Writer) :
    (writerStep m w).2.2 = .tau ∨
      ∃ off value current, w = .publish off value current ∧
        (writerStep m w).2.2 = .commit off value := by
  cases w with
  | idle => exact .inl rfl
  | check off value =>
    simp only [writerStep]
    split_ifs <;> exact .inl rfl
  | scan off value buf =>
    simp only [writerStep]
    split_ifs <;> exact .inl rfl
  | backup off value old i =>
    simp only [writerStep]
    split <;> exact .inl rfl
  | loadSerial off value =>
    simp only [writerStep]
    split_ifs <;> exact .inl rfl
  | setDirty off value current => exact .inl rfl
  | store off value current i =>
    simp only [writerStep]
    split <;> exact .inl rfl
  | publish off value current => exact .inr ⟨off, value, current, rfl, rfl⟩

/-- An entry is not both short and long. -/
theorem IsLong.not_short (hw : g.Wf pa.bytesUsed) {off : ℕ} {v : Bytes} (h : IsLong g off v) :
    ¬ IsShort g off := by
  rintro ⟨n', e', he', ho, hs⟩
  obtain ⟨n, e, he, rfl, -, hl⟩ := h
  obtain rfl := hw.entry_injective he he' ho.symm
  rw [he] at he'
  obtain rfl := Option.some.inj he'
  omega

/-- A step of a reader keeps the invariant of the others and of the writer. -/
theorem SysInv.of_reader (h : SysInv pa g H st) {r : ℕ} {rd : Reader}
    (hc : ∀ off, isCommit off x = false) (hx : ∀ r', r' ≠ r → isLoad r' x = false)
    (hr : ReaderOk pa g (H ++ [x]) st.writer r rd) :
    SysInv pa g (H ++ [x]) { st with reader := Function.update st.reader r rd } := by
  have hv : vals pa (H ++ [x]) = vals pa H := by
    funext off
    exact valueAfter_append pa (by simp [commits, hc]) H
  have hk : counts pa (H ++ [x]) = counts pa H := by
    funext off
    rw [counts, commits_append]
    simp [counts, commits, hc]
  refine ⟨h.header, by rw [hv, hk]; exact h.writer, fun r' => ?_, fun off v hl => ?_⟩
  · by_cases hrr : r' = r
    · subst hrr
      simpa using hr
    · simpa [hrr] using (h.reader r').step (hx r' hrr) fun off => .inr id
  · rw [commits_append, h.long off v hl]
    simp [commits, hc]

/-- **Every step keeps the invariant.** -/
theorem SysInv.step (hinv : AreaInv pa g) (h : SysInv pa g H st) (hs : Step pa st x st') :
    SysInv pa g (H ++ [x]) st' := by
  cases hs with
  | @update hw name off hf value hv =>
    obtain ⟨e, hl, rfl⟩ := hinv.find_eq_ok_iff.mp hf
    obtain ⟨n, he, -⟩ := hinv.wf.lookup_eq_some_iff.mp hl
    obtain ⟨h0, hlen⟩ := validateShortValueLen_eq_ok.mp hv
    have hwr : WriterInv g (vals pa H) (counts pa H) st.mem (.check e.off value.bytes) :=
      h.writer.move (by rw [hw]; rfl) ⟨⟨n, e, he, rfl⟩, h0, hlen, value.valid⟩
    refine ⟨h.header, ?_, fun r => (h.reader r).step rfl fun off => .inr ?_, fun off v hl => ?_⟩
    · rw [vals_snoc, counts_snoc]
      exact hwr
    · rw [hw]
      intro hd
      cases hd
    · rw [commits_append, h.long off v hl]
      rfl
  | write hw =>
    refine ⟨h.header.trans (writerStep_header _ _), ?_, fun r => ?_, fun off v hl => ?_⟩
    · rw [vals_snoc, counts_snoc]
      exact h.writer.step hinv.wf
    · refine (h.reader r).step ?_ fun off => ?_
      · rcases writerStep_event st.mem st.writer with hx | ⟨_, _, _, -, hx⟩ <;> rw [hx] <;> rfl
      · by_cases hd : st.writer.dirtyAt = some off
        · rcases @writerStep_dirty st.mem st.writer off hd with hd' | ⟨value, hx⟩
          · exact .inr fun _ => hd'
          · exact .inl (by rw [hx]; simp [isCommit])
        · exact .inr fun hd' => absurd hd' hd
    · rw [commits_append, h.long off v hl]
      rcases writerStep_event st.mem st.writer with hx | ⟨off', value, current, hpub, hx⟩
      · rw [hx]
        rfl
      · have hso : IsShort g off' := by
          have := h.writer.phase
          rw [hpub] at this
          exact this.1
        have hne : off' ≠ off := by
          rintro rfl
          exact hl.not_short hinv.wf hso
        rw [hx]
        simp [commits, isCommit, hne]
  | @begin r hr name off hf =>
    obtain ⟨e, hl, rfl⟩ := hinv.find_eq_ok_iff.mp hf
    obtain ⟨n, he, -⟩ := hinv.wf.lookup_eq_some_iff.mp hl
    exact h.of_reader (fun _ => rfl) (fun _ _ => rfl) ⟨n, e, he, rfl⟩
  | @read r hr =>
    have hrd := h.reader r
    -- a silent step of a reader that keeps its invariant
    have silent : ∀ rd, ReaderOk pa g H st.writer r rd →
        SysInv pa g (H ++ [.tau]) { st with reader := Function.update st.reader r rd } :=
      fun rd hok => h.of_reader (fun _ => rfl) (fun _ _ => rfl) (hok.step rfl fun _ => .inr id)
    cases hc : st.reader r with
    | idle => exact absurd hc hr
    | start off =>
      rw [hc] at hrd
      obtain ⟨long, hstep, hres⟩ := h.start_step hinv hrd
      rw [hstep]
      exact silent _ hres
    | load off long =>
      rw [hc] at hrd
      refine h.of_reader (fun _ => rfl) (fun r' hne => ?_) (h.load_step hrd)
      simpa [readerStep, isLoad] using hne.symm
    | copy off long s buf =>
      rw [hc] at hrd
      obtain ⟨hx, hok⟩ := h.copy_step hrd
      rw [hx]
      exact silent _ hok
    | scan off s buf =>
      rw [hc] at hrd
      obtain ⟨hx, hok⟩ := h.scan_step hrd
      rw [hx]
      exact silent _ hok
    | check off long s buf =>
      rw [hc] at hrd
      simp only [readerStep]
      split_ifs
      · split
        · exact h.of_reader (fun _ => rfl) (fun _ _ => rfl) trivial
        · exact h.of_reader (fun _ => rfl) (fun _ _ => rfl) trivial
      · exact silent _ hrd.1
    | called => exact h.of_reader (fun _ => rfl) (fun _ _ => rfl) trivial

/-- The invariant along every run. -/
theorem sysInv_run (hinv : AreaInv pa g)
    (hutf8 : ∀ n e, g.entry n = some e → Utf8.valid e.value = true) (h : Run pa H st) :
    SysInv pa g H st :=
  Run.invariant (fun _ => sysInv_init hinv hutf8) (fun _ _ _ _ h' hs => h'.step hinv hs) h

/-- **A successful second load certifies the bytes.** Fewer than `2 ^ 15` commits of the entry since
the first load cannot bring the low 16 bits of the serial back, so there was none. -/
theorem SysInv.check_value (hinv : AreaInv pa g)
    (hutf8 : ∀ n e, g.entry n = some e → Utf8.valid e.value = true) (h : SysInv pa g H st)
    {r off s : ℕ} {long : Option Bytes} {buf : Bytes} (hr : st.reader r = .check off long s buf)
    (hser : serial st.mem (off + 128) = s) {H₁ H₂ : List Event}
    (hsplit : SplitLast (fun x => isLoad r x = true) H H₁ (.load r off) H₂)
    (hc : commits off H₂ < 2 ^ 15) :
    buf = valueAfter pa off H₁ ∧ Utf8.valid buf = true := by
  have hrd := h.reader r
  rw [hr] at hrd
  obtain ⟨-, ⟨hs, H₁', H₂', S, hsnap⟩ | ⟨hl, -⟩⟩ := hrd
  · obtain ⟨rfl, -, rfl⟩ := hsnap.split.unique hsplit
    suffices hbuf : buf = valueAfter pa off H₁' from ⟨hbuf, hbuf ▸ hsnap.good.utf8⟩
    have hcount : counts pa H off = counts pa H₁' off + 2 * commits off H₂' := by
      have hload : isCommit off (.load r off) = false := rfl
      rw [counts, counts, hsnap.split.eq, commits_append]
      simp only [commits, List.countP_cons, hload, Bool.false_eq_true, if_false]
      omega
    have heven := hsnap.clean.even
    have hk := hsnap.count
    obtain ⟨S', hclean', hk', ⟨hd, hser', -⟩ | ⟨hd, hser', -⟩⟩ := h.writer.serial_cases hs
    · have heven' := hclean'.even
      rw [hcount] at hk'
      rcases hsnap.known with ⟨rfl, hp⟩ | ⟨rfl, -⟩
      · exact hp (by omega) hd
      · omega
    · have heven' := hclean'.even
      rw [hcount] at hk'
      rcases hsnap.known with ⟨rfl, -⟩ | ⟨rfl, hp⟩
      · omega
      · exact (hp (by omega)).2
  · have h0 : commits off H₁ = 0 := by
      have := h.long off buf hl
      rw [hsplit.eq, commits_append] at this
      omega
    obtain ⟨n, e, he, rfl, rfl, -⟩ := hl
    refine ⟨?_, hutf8 n e he⟩
    have := valueAfter_append pa h0 []
    rw [List.nil_append] at this
    rw [this]
    exact (initialValue_eq hinv he).symm

/-- What one step of a reader can be: inside the loop, the end of a read at a second serial load that
agrees, or the return after the callback. -/
theorem readerStep_cases (m : Mem) (r : ℕ) {rd : Reader} (h : rd ≠ .idle) :
    (rd ≠ .called ∧ (readerStep pa m r rd).1 ≠ .called ∧
      ((readerStep pa m r rd).2 = .tau ∨ ∃ off, (readerStep pa m r rd).2 = .load r off)) ∨
    (∃ off long s buf, rd = .check off long s buf ∧ serial m (off + 128) = s ∧
      ((∃ str, fromUtf8 buf = some str ∧
          readerStep pa m r rd = (.called, .callback r off str)) ∨
        (fromUtf8 buf = none ∧ readerStep pa m r rd = (.idle, .utf8Error r off)))) ∨
    (rd = .called ∧ readerStep pa m r rd = (.idle, .ret r)) := by
  cases rd with
  | idle => exact absurd rfl h
  | start off =>
    refine .inl ⟨by simp, ?_⟩
    simp only [readerStep]
    split_ifs
    · split <;> exact ⟨by simp, .inl rfl⟩
    · exact ⟨by simp, .inl rfl⟩
  | load off long =>
    refine .inl ⟨by simp, ?_, .inr ⟨off, rfl⟩⟩
    simp only [readerStep, afterLoad.eq_def]
    split_ifs
    · simp
    · simp
    · split <;> simp
  | copy off long s buf =>
    refine .inl ⟨by simp, ?_⟩
    simp only [readerStep]
    split_ifs <;> exact ⟨by simp, .inl rfl⟩
  | scan off s buf =>
    refine .inl ⟨by simp, ?_⟩
    simp only [readerStep]
    split_ifs <;> exact ⟨by simp, .inl rfl⟩
  | check off long s buf =>
    simp only [readerStep]
    by_cases heq : serial m (off + 128) = s
    · refine .inr (.inl ⟨off, long, s, buf, rfl, heq, ?_⟩)
      rw [if_pos heq]
      cases fromUtf8 buf with
      | some str => exact .inl ⟨str, rfl, rfl⟩
      | none => exact .inr ⟨rfl, rfl⟩
    · refine .inl ⟨by simp, ?_⟩
      rw [if_neg heq]
      exact ⟨by simp, .inl rfl⟩
  | called => exact .inr (.inr ⟨rfl, rfl⟩)

/-- A callback or a decode error comes from a second serial load that agrees. -/
theorem Step.exists_check {r off : ℕ} (hs : Step pa st x st')
    (hx : (∃ str, x = .callback r off str) ∨ x = .utf8Error r off) :
    ∃ long s buf, st.reader r = .check off long s buf ∧ serial st.mem (off + 128) = s ∧
      ((∃ str, fromUtf8 buf = some str ∧ x = .callback r off str) ∨
        (fromUtf8 buf = none ∧ x = .utf8Error r off)) := by
  cases hs with
  | update => rcases hx with ⟨_, hx⟩ | hx <;> cases hx
  | begin => rcases hx with ⟨_, hx⟩ | hx <;> cases hx
  | write =>
    rcases writerStep_event st.mem st.writer with he | ⟨_, _, _, -, he⟩ <;> rw [he] at hx <;>
      rcases hx with ⟨_, hx⟩ | hx <;> cases hx
  | @read r' hr =>
    rcases @readerStep_cases pa st.mem r' _ hr with
      ⟨-, -, he | ⟨_, he⟩⟩ | ⟨off', long, s, buf, hc, hser, ⟨str, hu, he⟩ | ⟨hu, he⟩⟩ | ⟨-, he⟩
    · rw [he] at hx
      rcases hx with ⟨_, hx⟩ | hx <;> cases hx
    · rw [he] at hx
      rcases hx with ⟨_, hx⟩ | hx <;> cases hx
    · rw [he] at hx ⊢
      rcases hx with ⟨_, hx⟩ | hx <;> cases hx
      exact ⟨long, s, buf, hc, hser, .inl ⟨str, hu, rfl⟩⟩
    · rw [he] at hx ⊢
      rcases hx with ⟨_, hx⟩ | hx <;> cases hx
      exact ⟨long, s, buf, hc, hser, .inr ⟨hu, rfl⟩⟩
    · rw [he] at hx
      rcases hx with ⟨_, hx⟩ | hx <;> cases hx

end System

end Seqlock

end RsProperties
