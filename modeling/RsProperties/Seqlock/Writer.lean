import RsProperties.Seqlock.Protocol

/-!
# The writer's invariant

`WriterInv g v k m w` ties the memory to the control state of the writer, for the values `v` and the
counters `k` the entries have so far. An entry that is not being rewritten has a clean serial over
its value; from the dirty to the clean serial of an update, the entry's backup is complete and its
serial is the old one plus 1. Long entries never change.

`WriterInv.step` is what one step of the writer keeps; `writerStep_dirty` is the only fact about the
writer that the readers' proof needs besides: an entry leaves the dirty phase by a commit.
-/

namespace RsProperties

open ByteMem PropertyAreaMap PropertyInfo

namespace Seqlock

/-- The entry the writer is rewriting, from the dirty to the clean serial. -/
def Writer.dirtyAt : Writer → Option ℕ
  | .store off _ _ _ => some off
  | .publish off _ _ => some off
  | _ => none

/-- A value a short entry can have. -/
structure GoodValue (v : Bytes) : Prop where
  nul : 0 ∉ v
  len : v.length < propValueMax
  utf8 : Utf8.valid v = true

/-- The offset of a bound short entry. -/
def IsShort (g : Shape) (off : ℕ) : Prop :=
  ∃ n e, g.entry n = some e ∧ e.off = off ∧ e.value.length < propValueMax

/-- The offset of a bound long entry, with its value. -/
def IsLong (g : Shape) (off : ℕ) (value : Bytes) : Prop :=
  ∃ n e, g.entry n = some e ∧ e.off = off ∧ e.value = value ∧ propValueMax ≤ e.value.length

/-- A clean entry: the serial and the slot agree on the value. -/
structure Quiet (m : Mem) (off : ℕ) (v : Bytes) (k : ℕ) : Prop where
  clean : CleanSerial (serial m (off + 128)) v.length
  count : serial m (off + 128) % 2 ^ 16 = k % 2 ^ 16
  slot : Holds m (off + 132) (v ++ [0])

/-- A dirty entry: the old value is in the backup slot. -/
structure Busy (m : Mem) (off : ℕ) (v : Bytes) (k current : ℕ) : Prop where
  clean : CleanSerial current v.length
  count : current % 2 ^ 16 = k % 2 ^ 16
  serial_eq : serial m (off + 128) = current + 1
  backup : Holds m 148 v

/-- What the control state of the writer says about the memory. -/
def Phase (g : Shape) (v : ℕ → Bytes) (k : ℕ → ℕ) (m : Mem) : Writer → Prop
  | .idle => True
  | .check off value => (∃ n e, g.entry n = some e ∧ e.off = off) ∧ GoodValue value
  | .scan off value buf => IsShort g off ∧ GoodValue value ∧ buf <+: v off
  | .backup off value old i =>
    IsShort g off ∧ GoodValue value ∧ old = v off ∧ i ≤ old.length ∧ Holds m 148 (old.take i)
  | .loadSerial off value => IsShort g off ∧ GoodValue value ∧ Holds m 148 (v off)
  | .setDirty off value current =>
    IsShort g off ∧ GoodValue value ∧ Holds m 148 (v off) ∧ current = serial m (off + 128)
  | .store off value current i =>
    IsShort g off ∧ GoodValue value ∧ Busy m off (v off) (k off) current ∧
      i ≤ value.length ∧ Holds m (off + 132) (value.take i)
  | .publish off value current =>
    IsShort g off ∧ GoodValue value ∧ Busy m off (v off) (k off) current ∧
      Holds m (off + 132) (value ++ [0])

/-- The invariant of the writer. -/
structure WriterInv (g : Shape) (v : ℕ → Bytes) (k : ℕ → ℕ) (m : Mem) (w : Writer) : Prop where
  good : ∀ off, IsShort g off → GoodValue (v off)
  quiet : ∀ off, IsShort g off → w.dirtyAt ≠ some off → Quiet m off (v off) (k off)
  long : ∀ n e, g.entry n = some e → propValueMax ≤ e.value.length →
    EntryAt m e.off (joinDot (g.path n)) e.value
  phase : Phase g v k m w

/-! ### Reading a string byte by byte -/

section Scan

variable {m : Mem} {a : ℕ} {v buf : Bytes}

/-- The next byte of a copy. -/
theorem prefix_snoc (hv : Holds m a v) (hp : buf <+: v) (hlt : buf.length < v.length) :
    buf ++ [m (a + buf.length)] <+: v := by
  rw [hv buf.length hlt]
  obtain ⟨rest, rfl⟩ := hp
  cases rest with
  | nil => simp at hlt
  | cons b rest => exact ⟨rest, by simp⟩

/-- The next byte of a NUL scan: the end of the string, or one more byte of it. -/
theorem scan_next (hv : Holds m a (v ++ [0])) (h0 : 0 ∉ v) (hp : buf <+: v) :
    (m (a + buf.length) = 0 ∧ buf = v) ∨
      (m (a + buf.length) ≠ 0 ∧ buf ++ [m (a + buf.length)] <+: v) := by
  have hle := hp.length_le
  rcases Nat.lt_or_eq_of_le hle with hlt | heq
  · have hb := (holds_append.mp hv).1 buf.length hlt
    refine .inr ⟨fun h => h0 ?_, prefix_snoc (holds_append.mp hv).1 hp hlt⟩
    rw [← h, hb]
    exact List.getElem_mem hlt
  · have hend := (holds_cons.mp (holds_append.mp hv).2).1
    exact .inl ⟨by rw [heq, hend], hp.eq_of_length heq⟩

/-- Storing the next byte of a string. -/
theorem holds_take_succ {b : UInt8} {i : ℕ} (hi : v[i]? = some b) (ht : Holds m a (v.take i)) :
    Holds (writeBytes m (a + i) [b]) a (v.take (i + 1)) := by
  have hlt : i < v.length := (List.getElem?_eq_some_iff.mp hi).1
  have hb : v[i] = b := (List.getElem?_eq_some_iff.mp hi).2
  rw [List.take_succ_eq_append_getElem hlt, holds_append, List.length_take,
    Nat.min_eq_left hlt.le]
  refine ⟨ht.congr (sameOn_writeBytes (.inl ?_)).symm, ?_⟩
  · rw [List.length_take]
    omega
  · rw [hb]
    exact holds_writeBytes _ _ _

/-- Storing the terminator. -/
theorem holds_nul {i : ℕ} (hi : v[i]? = none) (hle : i ≤ v.length) (ht : Holds m a (v.take i)) :
    Holds (writeBytes m (a + i) [0]) a (v ++ [0]) := by
  have hlen : i = v.length := le_antisymm hle (List.getElem?_eq_none_iff.mp hi)
  rw [hlen, List.take_length] at ht
  rw [hlen, holds_append]
  exact ⟨ht.congr (sameOn_writeBytes (.inl le_rfl)).symm, holds_writeBytes _ _ _⟩

end Scan

/-! ### Frames -/

section Frames

variable {pa : PropertyAreaMap} {g : Shape} {m m' : Mem} {off : ℕ} {v : Bytes} {k current : ℕ}

theorem Quiet.congr (h : Quiet m off v k) (hv : v.length < propValueMax)
    (hs : SameOn m m' (off + 128) (off + 224)) : Quiet m' off v k := by
  have hser : serial m (off + 128) = serial m' (off + 128) :=
    readU32_congr (hs.mono le_rfl (by omega))
  rw [propValueMax] at hv
  refine ⟨hser ▸ h.clean, hser ▸ h.count, h.slot.congr (hs.mono (by omega) ?_)⟩
  rw [List.length_append, List.length_singleton]
  omega

theorem Busy.congr (h : Busy m off v k current) (hv : v.length < propValueMax)
    (hser : SameOn m m' (off + 128) (off + 132)) (hb : SameOn m m' 148 240) :
    Busy m' off v k current := by
  rw [propValueMax] at hv
  refine ⟨h.clean, h.count, ?_, h.backup.congr (hb.mono le_rfl (by omega))⟩
  rw [← h.serial_eq]
  exact (readU32_congr hser).symm

theorem IsShort.low (hw : g.Wf pa.bytesUsed) (h : IsShort g off) : 112 ≤ off := by
  obtain ⟨n, e, he, rfl, -⟩ := h
  exact hw.layout.low _ (hw.entry_block n e he)

/-- A short entry meets no other block. -/
theorem IsShort.disjoint (hw : g.Wf pa.bytesUsed) (h : IsShort g off) {b : Block}
    (hb : b ∈ g.blocks) (hne : b.off ≠ off) : b.stop ≤ off ∨ off + 96 ≤ b.off := by
  obtain ⟨n, e, he, rfl, -⟩ := h
  have hge := entryExtent_ge (joinDot (g.path n))
  rcases hw.layout.disjoint hb (hw.entry_block n e he) with rfl | hd | hd
  · exact absurd rfl hne
  · exact .inl hd
  · simp only [Block.stop, Obj.extent] at hd
    exact .inr (by omega)

theorem IsShort.apart (hw : g.Wf pa.bytesUsed) {off' : ℕ} (h : IsShort g off)
    (h' : IsShort g off') (hne : off' ≠ off) : off' + 96 ≤ off ∨ off + 96 ≤ off' := by
  obtain ⟨n, e, he, rfl, -⟩ := h'
  have hge := entryExtent_ge (joinDot (g.path n))
  rcases h.disjoint hw (hw.entry_block n e he) hne with hd | hd
  · simp only [Block.stop, Obj.extent] at hd
    exact .inl (by omega)
  · exact .inr hd

/-- Stores into the backup slot or into one short entry keep the long entries. -/
theorem long_congr (hw : g.Wf pa.bytesUsed) {n : ℕ} {e : Entry} (he : g.entry n = some e)
    (hl : propValueMax ≤ e.value.length) (h : EntryAt m e.off (joinDot (g.path n)) e.value)
    (hs : (∀ x y, y ≤ 148 ∨ 240 ≤ x → SameOn m m' x y) ∨
      IsShort g off ∧ ∀ x y, y ≤ off + 128 ∨ off + 224 ≤ x → SameOn m m' x y) :
    EntryAt m' e.off (joinDot (g.path n)) e.value := by
  have hblock : ∀ b ∈ g.blocks, (∀ off, IsShort g off → b.off ≠ off) →
      SameOn m m' (b.off + 128) (b.stop + 128) := by
    intro b hb hne
    rcases hs with hs | ⟨hshort, hs⟩
    · have := hw.layout.low b hb
      exact hs _ _ (.inr (by omega))
    · rcases hshort.disjoint hw hb (hne off hshort) with hd | hd
      · exact hs _ _ (.inl (by omega))
      · exact hs _ _ (.inr (by omega))
  -- a long entry's blocks are not the block of a short entry
  have hshort : ∀ b ∈ g.blocks, (b.obj = .entry (joinDot (g.path n)) ∧ b.off = e.off ∨
      b.obj = .long e.value) → ∀ off, IsShort g off → b.off ≠ off := by
    rintro b hb ho off ⟨n', e', he', rfl, hs'⟩ heq
    have hbe := hw.layout.eq_of_off hb (hw.entry_block n' e' he') heq
    rcases ho with ⟨-, hoff⟩ | hobj
    · obtain rfl := hw.entry_injective he he' (hoff.symm.trans heq)
      rw [he] at he'
      obtain rfl := Option.some.inj he'
      omega
    · rw [hbe] at hobj
      cases hobj
  refine h.congr ?_ fun _ => ?_
  · have hb := hw.entry_block n e he
    have := hblock _ hb (hshort _ hb (.inl ⟨rfl, rfl⟩))
    simp only [Block.stop, Obj.extent] at this
    exact this.mono le_rfl (by omega)
  · have hb := hw.long_block n e he hl
    have := hblock _ hb (hshort _ hb (.inr rfl))
    simp only [Block.stop, Obj.extent] at this
    exact this.mono le_rfl (by omega)

end Frames

/-! ### One step of the writer -/

section Step

variable {pa : PropertyAreaMap} {g : Shape} {v : ℕ → Bytes} {k : ℕ → ℕ} {m : Mem} {w : Writer}

/-- A step without a store moves between two clean phases. -/
theorem WriterInv.move (h : WriterInv g v k m w) {w' : Writer} (hd : w.dirtyAt = none)
    (hphase : Phase g v k m w') : WriterInv g v k m w' :=
  ⟨h.good, fun off hs _ => h.quiet off hs (by rw [hd]; simp), h.long, hphase⟩

/-- A store into the backup slot. -/
theorem WriterInv.storeBackup (h : WriterInv g v k m w) (hw : g.Wf pa.bytesUsed) {w' : Writer}
    {m' : Mem} (hd : w.dirtyAt = none)
    (hs : ∀ x y, y ≤ 148 ∨ 240 ≤ x → SameOn m m' x y) (hphase : Phase g v k m' w') :
    WriterInv g v k m' w' := by
  refine ⟨h.good, fun off hso _ => ?_, fun n e he hl => ?_, hphase⟩
  · have hlow := hso.low hw
    refine (h.quiet off hso (by rw [hd]; simp)).congr (h.good off hso).len ?_
    exact hs _ _ (.inr (by omega))
  · exact @long_congr pa g m m' 0 hw n e he hl (h.long n e he hl) (.inl hs)

/-- A store into the entry that is, or becomes, dirty. -/
theorem WriterInv.storeEntry (h : WriterInv g v k m w) (hw : g.Wf pa.bytesUsed) {w' : Writer}
    {m' : Mem} {off : ℕ} (hso : IsShort g off)
    (hd : w.dirtyAt = none ∨ w.dirtyAt = some off) (hd' : w'.dirtyAt = some off)
    (hs : ∀ x y, y ≤ off + 128 ∨ off + 224 ≤ x → SameOn m m' x y) (hphase : Phase g v k m' w') :
    WriterInv g v k m' w' := by
  refine ⟨h.good, fun off' hso' hne => ?_, fun n e he hl => ?_, hphase⟩
  · have hne' : off' ≠ off := fun he => hne (by rw [hd', he])
    have hnd : w.dirtyAt ≠ some off' := by
      rcases hd with hd | hd <;> rw [hd] <;> simp [hne'.symm]
    refine (h.quiet off' hso' hnd).congr (h.good off' hso').len (hs _ _ ?_)
    have := hso.apart hw hso' hne'
    omega
  · exact long_congr hw he hl (h.long n e he hl) (.inr ⟨hso, hs⟩)

/-- The clean serial: the entry is quiet again, with the new value and two more on the counter. -/
theorem WriterInv.commit (hw : g.Wf pa.bytesUsed) {off : ℕ} {value : Bytes} {current : ℕ}
    (h : WriterInv g v k m (.publish off value current)) :
    WriterInv g (Function.update v off value) (Function.update k off (k off + 2))
      (writeU32 m (off + 128) (nextSerial value.length current)) .idle := by
  obtain ⟨hso, hgood, hbusy, hslot⟩ := h.phase
  have hlen := hgood.len
  rw [propValueMax] at hlen
  have hs : ∀ x y, y ≤ off + 128 ∨ off + 132 ≤ x → SameOn m
      (writeU32 m (off + 128) (nextSerial value.length current)) x y := fun x y hxy =>
    (sameOn_writeU32 (by omega)).symm
  have hser : serial (writeU32 m (off + 128) (nextSerial value.length current)) (off + 128) =
      nextSerial value.length current := readU32_writeU32_of_lt (nextSerial_lt (by omega))
  refine ⟨fun off' hso' => ?_, fun off' hso' _ => ?_, fun n e he hl => ?_, trivial⟩
  · rw [Function.update_apply]
    split_ifs
    · exact hgood
    · exact h.good off' hso'
  · by_cases hne : off' = off
    · subst hne
      rw [Function.update_self, Function.update_self]
      refine ⟨?_, ?_, hslot.congr (hs _ _ (.inr le_rfl))⟩
      · rw [hser]
        exact nextSerial_clean hbusy.clean _
      · rw [hser, nextSerial_low hbusy.clean]
        have := hbusy.count
        omega
    · rw [Function.update_of_ne hne, Function.update_of_ne hne]
      have hnd : (Writer.publish off value current).dirtyAt ≠ some off' := by
        simpa [Writer.dirtyAt] using Ne.symm hne
      refine (h.quiet off' hso' hnd).congr (h.good off' hso').len (hs _ _ ?_)
      have := hso.apart hw hso' hne
      omega
  · refine long_congr hw he hl (h.long n e he hl) (.inr ⟨hso, fun x y hxy => hs x y (by omega)⟩)

/-- The values after an event. -/
def valuesAfter (v : ℕ → Bytes) (x : Event) : ℕ → Bytes := fun off => commitValue off (v off) x

/-- The counters after an event: a commit adds 2. -/
def countersAfter (k : ℕ → ℕ) (x : Event) : ℕ → ℕ := fun off =>
  k off + if isCommit off x then 2 else 0

theorem valuesAfter_commit (v : ℕ → Bytes) (off : ℕ) (value : Bytes) :
    valuesAfter v (.commit off value) = Function.update v off value := by
  funext off'
  simp only [valuesAfter, commitValue, Function.update_apply, eq_comm]

theorem countersAfter_commit (k : ℕ → ℕ) (off : ℕ) (value : Bytes) :
    countersAfter k (.commit off value) = Function.update k off (k off + 2) := by
  funext off'
  by_cases h : off' = off
  · subst h
    simp [countersAfter, isCommit]
  · simp [countersAfter, isCommit, h, Ne.symm h]

/-- The snapshot goes on, or it is the whole value. -/
theorem WriterInv.scan_step {off : ℕ} {value buf : Bytes}
    (h : WriterInv g v k m (.scan off value buf)) :
    WriterInv g v k (writerStep m (.scan off value buf)).1
      (writerStep m (.scan off value buf)).2.1 ∧
    (writerStep m (.scan off value buf)).2.2 = .tau := by
  obtain ⟨hso, hgood, hp⟩ := h.phase
  have hv := h.good off hso
  have hq := h.quiet off hso (by simp [Writer.dirtyAt])
  have hsize : backupSize = 92 := rfl
  have hmax : propValueMax = 92 := rfl
  have hlen := hv.len
  rcases scan_next hq.slot hv.nul hp with ⟨hb, rfl⟩ | ⟨hb, hp'⟩
  · have hstep : writerStep m (.scan off value (v off)) =
        (m, .backup off value (v off) 0, .tau) := by
      have hb' : slotByte m off (v off).length = 0 := hb
      simp only [writerStep]
      rw [if_pos hb', if_neg (by omega)]
    rw [hstep]
    exact ⟨h.move rfl ⟨hso, hgood, rfl, Nat.zero_le _, fun i hi => by simp at hi⟩, rfl⟩
  · have hle := hp'.length_le
    rw [List.length_append, List.length_singleton] at hle
    have hstep : writerStep m (.scan off value buf) =
        (m, .scan off value (buf ++ [m (off + 132 + buf.length)]), .tau) := by
      have hb' : slotByte m off buf.length ≠ 0 := hb
      simp only [writerStep]
      rw [if_neg hb', if_pos (by omega)]
      rfl
    rw [hstep]
    exact ⟨h.move rfl ⟨hso, hgood, hp'⟩, rfl⟩

/-- The backup goes on, or it is complete. -/
theorem WriterInv.backup_step (hw : g.Wf pa.bytesUsed) {off : ℕ} {value old : Bytes} {i : ℕ}
    (h : WriterInv g v k m (.backup off value old i)) :
    WriterInv g v k (writerStep m (.backup off value old i)).1
      (writerStep m (.backup off value old i)).2.1 ∧
    (writerStep m (.backup off value old i)).2.2 = .tau := by
  obtain ⟨hso, hgood, rfl, hi, hb⟩ := h.phase
  have hlen := (h.good off hso).len
  rw [propValueMax] at hlen
  have hs : ∀ b : UInt8, ∀ x y, y ≤ 148 ∨ 240 ≤ x →
      SameOn m (writeBytes m (148 + i) [b]) x y := fun b x y hxy =>
    (sameOn_writeBytes (by rw [List.length_singleton]; omega)).symm
  simp only [writerStep]
  cases hget : (v off)[i]? with
  | some b =>
    have hlt := (List.getElem?_eq_some_iff.mp hget).1
    exact ⟨h.storeBackup hw rfl (hs b) ⟨hso, hgood, rfl, hlt, holds_take_succ hget hb⟩, rfl⟩
  | none =>
    refine ⟨h.storeBackup hw rfl (hs 0) ⟨hso, hgood, ?_⟩, rfl⟩
    exact (holds_append.mp (holds_nul hget hi hb)).1

/-- The dirty serial. -/
theorem WriterInv.setDirty_step (hw : g.Wf pa.bytesUsed) {off : ℕ} {value : Bytes} {current : ℕ}
    (h : WriterInv g v k m (.setDirty off value current)) :
    WriterInv g v k (writeU32 m (off + 128) (dirtySerial current)) (.store off value current 0) := by
  obtain ⟨hso, hgood, hb, rfl⟩ := h.phase
  have hq := h.quiet off hso (by simp [Writer.dirtyAt])
  have hlow := hso.low hw
  have hlen := (h.good off hso).len
  rw [propValueMax] at hlen
  have hlt : serial m (off + 128) + 1 < 2 ^ 32 := by
    have := hq.clean.even
    have hr := readU32_lt m (off + 128)
    rw [serial] at this ⊢
    omega
  have hs : ∀ x y, y ≤ off + 128 ∨ off + 132 ≤ x → SameOn m
      (writeU32 m (off + 128) (dirtySerial (serial m (off + 128)))) x y := fun x y hxy =>
    (sameOn_writeU32 (by omega)).symm
  refine h.storeEntry hw hso (.inl rfl) rfl (fun x y hxy => hs x y (by omega))
    ⟨hso, hgood, ⟨hq.clean, hq.count, ?_, hb.congr (hs _ _ (.inl (by omega)))⟩, Nat.zero_le _,
      fun i hi => by simp at hi⟩
  rw [dirtySerial_of_even hq.clean.even]
  exact readU32_writeU32_of_lt hlt

/-- The value goes on, or it is complete. -/
theorem WriterInv.store_step (hw : g.Wf pa.bytesUsed) {off : ℕ} {value : Bytes} {current i : ℕ}
    (h : WriterInv g v k m (.store off value current i)) :
    WriterInv g v k (writerStep m (.store off value current i)).1
      (writerStep m (.store off value current i)).2.1 ∧
    (writerStep m (.store off value current i)).2.2 = .tau := by
  obtain ⟨hso, hgood, hbusy, hi, hslot⟩ := h.phase
  have hlow := hso.low hw
  have hlen := hgood.len
  rw [propValueMax] at hlen
  have hs : ∀ b : UInt8, ∀ x y, y ≤ off + 132 ∨ off + 224 ≤ x →
      SameOn m (writeBytes m (off + 132 + i) [b]) x y := fun b x y hxy =>
    (sameOn_writeBytes (by rw [List.length_singleton]; omega)).symm
  have hbusy' : ∀ b : UInt8, Busy (writeBytes m (off + 132 + i) [b]) off (v off) (k off) current :=
    fun b => hbusy.congr (h.good off hso).len (hs b _ _ (.inl le_rfl)) (hs b _ _ (.inl (by omega)))
  simp only [writerStep]
  cases hget : value[i]? with
  | some b =>
    have hlt := (List.getElem?_eq_some_iff.mp hget).1
    exact ⟨h.storeEntry hw hso (.inr rfl) rfl (fun x y hxy => hs b x y (by omega))
      ⟨hso, hgood, hbusy' b, hlt, holds_take_succ hget hslot⟩, rfl⟩
  | none =>
    exact ⟨h.storeEntry hw hso (.inr rfl) rfl (fun x y hxy => hs 0 x y (by omega))
      ⟨hso, hgood, hbusy' 0, holds_nul hget hi hslot⟩, rfl⟩

/-- **One step of the writer** keeps the invariant, with the values and counters after its event. -/
theorem WriterInv.step (hw : g.Wf pa.bytesUsed) (h : WriterInv g v k m w) :
    WriterInv g (valuesAfter v (writerStep m w).2.2) (countersAfter k (writerStep m w).2.2)
      (writerStep m w).1 (writerStep m w).2.1 := by
  cases w with
  | idle => exact h
  | check off value =>
    obtain ⟨⟨n, e, he, rfl⟩, hgood⟩ := h.phase
    by_cases hl : isLong m (e.off + 128) = true
    · rw [writerStep, if_pos hl]
      exact h.move rfl trivial
    · rw [writerStep, if_neg hl]
      refine h.move rfl ⟨⟨n, e, he, rfl, ?_⟩, hgood, List.nil_prefix⟩
      by_contra hv
      exact hl (isLong_of_long ((h.long n e he (by omega)).long (by omega)).1)
  | scan off value buf =>
    obtain ⟨hinv, hx⟩ := h.scan_step
    rw [hx]
    exact hinv
  | backup off value old i =>
    obtain ⟨hinv, hx⟩ := h.backup_step hw
    rw [hx]
    exact hinv
  | loadSerial off value =>
    obtain ⟨hso, hgood, hb⟩ := h.phase
    have hlen := hgood.len
    have hclean := (h.quiet off hso (by simp [Writer.dirtyAt])).clean
    have hl : ¬ (serial m (off + 128) &&& longFlag != 0) = true := by
      rw [hclean.not_long]
      simp
    simp only [writerStep]
    rw [if_neg hl, if_neg (by omega)]
    exact h.move rfl ⟨hso, hgood, hb, rfl⟩
  | setDirty off value current => exact h.setDirty_step hw
  | store off value current i =>
    obtain ⟨hinv, hx⟩ := h.store_step hw
    rw [hx]
    exact hinv
  | publish off value current =>
    simp only [writerStep]
    rw [valuesAfter_commit, countersAfter_commit]
    exact h.commit hw

/-- An entry leaves the dirty phase by a commit. -/
theorem writerStep_dirty {off : ℕ} (h : w.dirtyAt = some off) :
    (writerStep m w).2.1.dirtyAt = some off ∨ ∃ value, (writerStep m w).2.2 = .commit off value := by
  cases w with
  | store off' value current i =>
    refine .inl ?_
    simp only [writerStep]
    split <;> exact h
  | publish off' value current =>
    obtain rfl : off' = off := Option.some.inj h
    exact .inr ⟨value, rfl⟩
  | _ => cases h

end Step

end Seqlock

end RsProperties
