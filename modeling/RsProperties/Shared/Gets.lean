import RsProperties.Shared.World

/-!
# Gets are linearizable

What a get returns while names are added and values rewritten. Undisturbed, it shows what the contents
have for the name (`World.getAlone`). Beside the writer it is put together from a lookup and the
iterations of a read, each of which loads from another memory; what its control state says about the run
so far is `GetOk`, and from it a result that leaves the loop was the right one at some moment while the
get ran (`get_linearizes`).

An iteration is followed from the contents at its first serial load: `Snap` says what the bytes gathered
since are worth. If no update of the entry has completed in between, they belong to the value the entry
had then. Otherwise they may be anything, but the second load will not agree.
-/

namespace RsProperties

open ByteMem StateExcept PropertyAreaMap PropertyInfo Process Publish
open Seqlock (Writer WriterInv IsShort IsLong GoodValue Resolved backupLen backupLen_succ prefix_snoc
  scan_next slotByte backupByte)

namespace Shared

variable {c c' : Contents} {s s' : State} {x : Event} {i off : ℕ} {name : Bytes}

/-! ### Gets that nobody disturbs -/

/-- What a get of the name returns under a shape. -/
def Shows (g : Shape) (name : Bytes) : Except Error Str → Prop
  | .ok str => ∃ e, g.lookup name = some e ∧ str.bytes = e.value
  | .error e => g.find name = .error e

/-- The name has its entry at the offset. -/
def BoundAt (g : Shape) (name : Bytes) (off : ℕ) : Prop := ∃ e, g.lookup name = some e ∧ e.off = off

/-- The entries are short or long. -/
theorem BoundAt.isShort_or_isLong (h : BoundAt c.shape name off) :
    IsShort c.shape off ∨ ∃ v, IsLong c.shape off v := by
  obtain ⟨e, hl, rfl⟩ := h
  obtain ⟨n, he, -⟩ := c.wf.lookup_eq_some_iff.mp hl
  by_cases hv : propValueMax ≤ e.value.length
  · exact .inr ⟨e.value, n, e, he, rfl, rfl, hv⟩
  · exact .inl ⟨n, e, he, rfl, by omega⟩

/-- The value behind the name. -/
theorem BoundAt.valueAt (h : BoundAt c.shape name off) :
    ∃ e, c.shape.lookup name = some e ∧ e.value = c.shape.valueAt off := by
  obtain ⟨e, hl, rfl⟩ := h
  obtain ⟨n, he, -⟩ := c.wf.lookup_eq_some_iff.mp hl
  exact ⟨e, hl, (c.wf.valueAt_eq he).symm⟩

/-- The value of a long entry behind the name. -/
theorem BoundAt.value_of_isLong (h : BoundAt c.shape name off) {v : Bytes} (hv : IsLong c.shape off v) :
    ∃ e, c.shape.lookup name = some e ∧ e.value = v := by
  obtain ⟨e, hl, rfl⟩ := h
  obtain ⟨n, he, -⟩ := c.wf.lookup_eq_some_iff.mp hl
  obtain ⟨k, e', he', ho, rfl, -⟩ := hv
  obtain rfl := c.wf.entry_injective he' he ho
  obtain rfl := Option.some.inj (he.symm.trans he')
  exact ⟨e, hl, rfl⟩

theorem BoundAt.mono (h : BoundAt c.shape name off) (hle : c ≤ c') : BoundAt c'.shape name off := by
  obtain ⟨e, hl, rfl⟩ := h
  exact (show c.shape.Spreads c'.shape from hle.spreads).lookup hl

/-- The mapping finds the entry. -/
theorem BoundAt.propertyInfo (h : BoundAt c.shape name off) :
    readerMap.propertyInfo off = .ok (off + 128) := by
  obtain ⟨e, hl, rfl⟩ := h
  obtain ⟨n, he, -⟩ := c.wf.lookup_eq_some_iff.mp hl
  exact @Sized.propertyInfo readerMap ⟨c.toPublished⟩ sized_readerMap n e he

/-- Resolving a long entry yields its value. -/
theorem World.long (h : World c s) {v : Bytes} (hv : IsLong c.shape off v) :
    serial s.mem (off + 128) = longSerial ∧
      (readerMap.withData s.mem).longPropertyValue off = .ok v := by
  obtain ⟨n, e, he, rfl, rfl, hl⟩ := hv
  have hat := h.entries.long n e he hl
  have hmod := c.wf.layout.aligned _ (c.wf.entry_block n e he)
  have hstop := c.wf.layout.high _ (c.wf.long_block n e he hl)
  have hfits := c.fits
  simp only [Block.stop, Obj.extent] at hstop
  refine ⟨(hat.long hl).1, longPropertyValue_of_size rfl rfl hmod hat
    (c.wf.nul_notMem_joinDot (c.wf.entry_node n e he).1) (c.wf.entry_value n e he) hl (by omega)⟩

/-- The backup of a whole mapping. -/
theorem readDirtyBackup_eq {m : Mem} {n : ℕ} (hn : n < 92) :
    (readerMap.withData m).readDirtyBackup n = .ok (slice m 148 n) := by
  have hsize : backupSize = 92 := by decide
  have hd : (readerMap.withData m).mmap.atomicData trieNodeSize
      (readerMap.withData m).dataOffset n = .ok 148 := by
    refine MemoryMap.dataAt_eq_ok (show (131072 : ℕ) ≤ usizeMax by decide) ?_
    change 20 + 128 + n ≤ 131072
    omega
  rw [readDirtyBackup, if_neg (by rw [hsize]; omega), except_bind_ok hd, withData_data]
  rfl

/-- **An undisturbed read** of a bound name returns its value. -/
theorem World.readWithCallback (h : World c s) (hb : BoundAt c.shape name off) :
    ∃ str, (readerMap.withData s.mem).readWithCallback off = .ok str ∧ Shows c.shape name (.ok str) := by
  have hinfo : (readerMap.withData s.mem).propertyInfo off = .ok (off + 128) := hb.propertyInfo
  rw [PropertyAreaMap.readWithCallback, except_bind_ok hinfo]
  rcases hb.isShort_or_isLong with hs | ⟨v, hv⟩
  · obtain ⟨e, hl, hval⟩ := hb.valueAt
    have hgood := h.entries.good off hs
    have hlen := hgood.len
    rw [propValueMax] at hlen
    refine ⟨⟨c.shape.valueAt off, hgood.utf8⟩, ?_, e, hl, hval.symm⟩
    rw [withData_data, h.entries.isLong_short hs]
    obtain ⟨S, hc, -, ⟨-, hser, hslot⟩ | ⟨-, hser, hbackup⟩⟩ := h.entries.serial_cases hs
    · -- the slot
      have hscan : shortValueBytes s.mem (off + 128) = c.shape.valueAt off :=
        scan_of_holds hslot hgood.nul hgood.len
      simp [Bind.bind, Except.bind, hser, hc.not_dirty, hscan, fromUtf8_of_valid hgood.utf8]
    · -- the backup copy of the entry under update
      have hdirty : serialDirty (S + 1) = true := by
        have he := hc.even
        rw [serialDirty_eq]
        simp only [decide_eq_true_eq]
        omega
      have hback := backupLen_succ hc hgood
      rw [backupLen] at hback
      have hread := @readDirtyBackup_eq s.mem (c.shape.valueAt off).length (by omega)
      rw [slice_eq_of_holds hbackup] at hread
      simp [Bind.bind, Except.bind, hser, hdirty, hback, hread, fromUtf8_of_valid hgood.utf8]
  · obtain ⟨hser, hlong⟩ := h.long hv
    obtain ⟨e, hl, rfl⟩ := hb.value_of_isLong hv
    have hutf8 : Utf8.valid e.value = true := h.valid name e hl
    refine ⟨⟨e.value, hutf8⟩, ?_, e, hl, rfl⟩
    have hdirty : serialDirty longSerial = false := by decide
    rw [withData_data, isLong_of_long hser, hlong]
    simp [Bind.bind, Except.bind, Functor.map, Except.map, hser, hdirty, fromUtf8_of_valid hutf8]

/-- **An undisturbed get** shows what the contents have for the name. -/
theorem World.getAlone (h : World c s) (name : Bytes) :
    Shows c.shape name (getAlone s.mem name) := by
  have hfind := h.linked.find name
  rw [Shared.getAlone]
  cases hf : (readerMap.withData s.mem).find name with
  | ok off =>
    obtain ⟨str, hr, hshow⟩ := h.readWithCallback (c.wf.find_eq_ok_iff.mp (hfind.symm.trans hf))
    rw [except_bind_ok rfl, hr]
    exact hshow
  | error e => exact hfind.symm.trans hf

/-- A shape shows one result. -/
theorem Shows.unique {g : Shape} {used : ℕ} (hw : g.Wf used) {r r' : Except Error Str}
    (h : Shows g name r) (h' : Shows g name r') : r = r' := by
  have mixed : ∀ {str e}, Shows g name (.ok str) → ¬ Shows g name (.error e) := by
    rintro str e ⟨e', hl, -⟩ hf
    have hnone := (hw.find_error hf).1
    cases hl.symm.trans hnone
  cases r with
  | ok a =>
    cases r' with
    | ok b =>
      obtain ⟨e, hl, ha⟩ := h
      obtain ⟨e', hl', hb⟩ := h'
      obtain rfl := Option.some.inj (hl.symm.trans hl')
      rw [Str.ext (ha.trans hb.symm)]
    | error b => exact absurd h' (mixed h)
  | error a =>
    cases r' with
    | ok b => exact absurd h (mixed h')
    | error b => exact congrArg Except.error (Except.error.inj (h.symm.trans h'))

/-! ### An iteration of a read -/

/-- What is known of the value an entry had under the contents `c₀`, from a serial `ser` loaded then and
the bytes read since: `P`, as long as no update has completed and the entry is clean still, or dirty still
if the serial was. -/
structure SnapAt (c₀ c : Contents) (w : Writer) (off ser : ℕ) (P : Bytes → Prop) (S : ℕ) : Prop where
  short : IsShort c₀.shape off
  good : GoodValue (c₀.shape.valueAt off)
  clean : CleanSerial S (c₀.shape.valueAt off).length
  count : S % 2 ^ 16 = c₀.count off % 2 ^ 16
  known : (ser = S ∧ (c.count off = c₀.count off → w.dirtyAt ≠ some off →
      P (c₀.shape.valueAt off))) ∨
    (ser = S + 1 ∧ (c.count off = c₀.count off → w.dirtyAt = some off ∧ P (c₀.shape.valueAt off)))

def Snap (c₀ c : Contents) (w : Writer) (off ser : ℕ) (P : Bytes → Prop) : Prop :=
  ∃ S, SnapAt c₀ c w off ser P S

section Iteration

variable {c₀ : Contents} {ser : ℕ} {P : Bytes → Prop} {w : Writer}

/-- A step of anybody keeps the iteration. -/
theorem Snap.step (h : Snap c₀ c s.updating off ser P) (hle : c₀ ≤ c) (hch : Change c s x c' s') :
    Snap c₀ c' s'.updating off ser P := by
  obtain ⟨S, hs⟩ := h
  refine ⟨S, hs.short, hs.good, hs.clean, hs.count, ?_⟩
  have hc := hle.count off hs.short
  have hc' := hch.count off (hle.short off hs.short)
  have still : c'.count off = c₀.count off → c.count off = c₀.count off ∧ isCommit off x = false := by
    intro h0
    cases hx : isCommit off x with
    | true =>
      rw [hx, if_pos rfl] at hc'
      omega
    | false =>
      rw [hx] at hc'
      exact ⟨by simp only [Bool.false_eq_true, if_false] at hc'; omega, rfl⟩
  have keep : isCommit off x = false → s.updating.dirtyAt = some off →
      s'.updating.dirtyAt = some off := fun hx => (hch.dirty off).resolve_left (by simp [hx])
  refine hs.known.imp ?_ ?_
  · rintro ⟨hser, hp⟩
    refine ⟨hser, fun h0 hn => ?_⟩
    obtain ⟨h1, hx⟩ := still h0
    exact hp h1 fun hdirty => hn (keep hx hdirty)
  · rintro ⟨hser, hp⟩
    refine ⟨hser, fun h0 => ?_⟩
    obtain ⟨h1, hx⟩ := still h0
    exact ⟨keep hx (hp h1).1, (hp h1).2⟩

/-- Learning more about the bytes, from what the memory holds while they belong to the value. -/
theorem Snap.imp (h : Snap c₀ c w off ser P) (hle : c₀ ≤ c) {Q : Bytes → Prop}
    (hq : ∀ u, GoodValue u → (ser % 2 = 1 → backupLen ser = u.length) →
      (c.shape.valueAt off = u → (ser % 2 = 1 → w.dirtyAt = some off) →
        (ser % 2 = 0 → w.dirtyAt ≠ some off) → P u → Q u)) : Snap c₀ c w off ser Q := by
  obtain ⟨S, hs⟩ := h
  have heven := hs.clean.even
  refine ⟨S, hs.short, hs.good, hs.clean, hs.count, hs.known.imp ?_ ?_⟩
  · rintro ⟨rfl, hp⟩
    refine ⟨rfl, fun h0 hn => ?_⟩
    exact hq _ hs.good (fun h1 => by omega) (hle.value off hs.short h0) (fun h1 => by omega)
      (fun _ => hn) (hp h0 hn)
  · rintro ⟨rfl, hp⟩
    refine ⟨rfl, fun h0 => ⟨(hp h0).1, ?_⟩⟩
    exact hq _ hs.good (fun _ => backupLen_succ hs.clean hs.good) (hle.value off hs.short h0)
      (fun _ => (hp h0).1) (fun h1 => by omega) (hp h0).2

/-- One byte of the backup. -/
theorem World.copy (h : World c s) (hle : c₀ ≤ c) (hodd : ser % 2 = 1) {buf : Bytes}
    (hsnap : Snap c₀ c s.updating off ser fun u => buf <+: u ∧ buf.length < u.length) :
    Snap c₀ c s.updating off ser fun u =>
      buf ++ [backupByte s.mem buf.length] <+: u ∧ buf.length + 1 ≤ u.length := by
  have hshort : IsShort c.shape off := by
    obtain ⟨S, hs⟩ := hsnap
    exact hle.short off hs.short
  refine hsnap.imp hle fun u _ _ hval hdirty _ hp => ?_
  obtain ⟨S, -, -, ⟨hd, -⟩ | ⟨-, -, hb⟩⟩ := h.entries.serial_cases hshort
  · exact absurd (hdirty hodd) hd
  · have hb' : Holds s.mem 148 u := hval ▸ hb
    exact ⟨prefix_snoc hb' hp.1 hp.2, hp.2⟩

/-- One byte of the value slot. -/
theorem World.scan (h : World c s) (hle : c₀ ≤ c) (heven : ser % 2 = 0) {buf : Bytes}
    (hsnap : Snap c₀ c s.updating off ser fun u => buf <+: u) :
    Snap c₀ c s.updating off ser fun u =>
      (slotByte s.mem off buf.length = 0 ∧ buf = u) ∨
      (slotByte s.mem off buf.length ≠ 0 ∧ buf ++ [slotByte s.mem off buf.length] <+: u) := by
  have hshort : IsShort c.shape off := by
    obtain ⟨S, hs⟩ := hsnap
    exact hle.short off hs.short
  refine hsnap.imp hle fun u hgood _ hval _ hclean hp => ?_
  obtain ⟨S, -, -, ⟨-, -, hslot⟩ | ⟨hd, -⟩⟩ := h.entries.serial_cases hshort
  · have hslot' : Holds s.mem (off + 132) (u ++ [0]) := hval ▸ hslot
    exact scan_next hslot' hgood.nul hp
  · exact absurd hd (hclean heven)

/-- **A second load that agrees certifies the bytes.** Fewer than `2 ^ 15` updates of the entry since the
first one cannot bring the low 16 bits of the serial back, so there was none. -/
theorem Snap.certified (h : Snap c₀ c s.updating off (serial s.mem (off + 128)) P) (hw : World c s)
    (hle : c₀ ≤ c) {k : ℕ} (hk : c.count off = c₀.count off + 2 * k) (hlt : k < 2 ^ 15) :
    P (c₀.shape.valueAt off) := by
  obtain ⟨S, hs⟩ := h
  have heven := hs.clean.even
  have hcount := hs.count
  obtain ⟨S', hclean', hcount', ⟨hd, hser', -⟩ | ⟨hd, hser', -⟩⟩ :=
    hw.entries.serial_cases (hle.short off hs.short)
  · have heven' := hclean'.even
    rcases hs.known with ⟨hser, hp⟩ | ⟨hser, -⟩
    · exact hp (by omega) hd
    · omega
  · have heven' := hclean'.even
    rcases hs.known with ⟨hser, -⟩ | ⟨hser, hp⟩
    · omega
    · exact (hp (by omega)).2

end Iteration

/-! ### A get under way -/

/-- The result is right at some moment of the run from `s₀`. -/
def Moment (s₀ : State) (L : List Event) (s : State) (name : Bytes) (r : Except Error Str) : Prop :=
  ∃ L₁ L₂ t ct, L = L₁ ++ L₂ ∧ RunFrom s₀ L₁ t ∧ RunFrom t L₂ s ∧ World ct t ∧ Shows ct.shape name r

/-- The reader's last first load of a serial was in the state `t`, which had the contents `c₀`. -/
structure Loaded (s₀ : State) (L : List Event) (s : State) (c : Contents) (i off : ℕ) (name : Bytes)
    (t : State) (c₀ : Contents) (L₁ L₂ : List Event) : Prop where
  split : Trace.SplitLast (fun x => isLoad i x = true) L L₁ (.load i off) L₂
  before : RunFrom s₀ L₁ t
  after : RunFrom t (.load i off :: L₂) s
  world : World c₀ t
  le : c₀ ≤ c
  bound : BoundAt c₀.shape name off
  count : IsShort c₀.shape off → c.count off = c₀.count off + 2 * commits off L₂

/-- What is known since the last load. -/
def Since (s₀ : State) (L : List Event) (s : State) (c : Contents) (i off : ℕ) (name : Bytes)
    (Q : Contents → Prop) : Prop :=
  ∃ t c₀ L₁ L₂, Loaded s₀ L s c i off name t c₀ L₁ L₂ ∧ Q c₀

/-- What the control state of `read_with_callback` says of the run. -/
def ReadOk (s₀ : State) (L : List Event) (s : State) (c : Contents) (i : ℕ) (name : Bytes) :
    Seqlock.Reader → Prop
  | .start off => BoundAt c.shape name off
  | .load off long => BoundAt c.shape name off ∧ Resolved c.shape off long
  | .copy off long ser buf => Resolved c.shape off long ∧ ser % 2 = 1 ∧
    Since s₀ L s c i off name fun c₀ => Snap c₀ c s.updating off ser fun u =>
      buf <+: u ∧ buf.length < u.length
  | .scan off ser buf => ser % 2 = 0 ∧
    Since s₀ L s c i off name fun c₀ => Snap c₀ c s.updating off ser fun u => buf <+: u
  | .check off long ser buf => Resolved c.shape off long ∧
    Since s₀ L s c i off name fun c₀ =>
      Snap c₀ c s.updating off ser (fun u => buf = u) ∨ IsLong c₀.shape off buf
  | _ => False

/-- What the lookup has answered. -/
def Answered (s₀ : State) (L : List Event) (s : State) (c : Contents) (name : Bytes) :
    Except Error ℕ → Prop
  | .ok off => BoundAt c.shape name off
  | .error e => Moment s₀ L s name (.error e)

/-- Of every iteration that ended with an agreeing load, few updates of its entry fell into it. -/
def Quick (i : ℕ) (L : List Event) : Prop :=
  ∀ L₁ off L₂ L₃, L = L₁ ++ .load i off :: (L₂ ++ .agreed i off :: L₃) →
    (∀ y ∈ L₂, isLoad i y = false) → commits off L₂ < 2 ^ 15

/-- What the control state of a get says of the run. -/
def GetOk (s₀ : State) (L : List Event) (s : State) (c : Contents) (i : ℕ) (name : Bytes) :
    Getting → Prop
  | .idle => False
  | .finding name' rest => name' = name ∧ ∀ r, rest = .done r → Answered s₀ L s c name r
  | .reading name' rd => name' = name ∧ ReadOk s₀ L s c i name rd
  | .done name' r => name' = name ∧ (Quick i L → Moment s₀ L s name r)

section Under

variable {s₀ : State} {L : List Event} {r : Except Error Str}

theorem Moment.now (hrun : RunFrom s₀ L s) (hw : World c s) (hr : Shows c.shape name r) :
    Moment s₀ L s name r :=
  ⟨L, [], s, c, (List.append_nil L).symm, hrun, .start rfl, hw, hr⟩

theorem Moment.snoc (h : Moment s₀ L s name r) (hs : Step s x s') : Moment s₀ (L ++ [x]) s' name r := by
  obtain ⟨L₁, L₂, t, ct, rfl, h₁, h₂, hw, hr⟩ := h
  exact ⟨L₁, L₂ ++ [x], t, ct, List.append_assoc _ _ _, h₁, h₂.snoc hs, hw, hr⟩

theorem Quick.of_snoc (h : Quick i (L ++ [x])) : Quick i L := by
  intro L₁ off L₂ L₃ hL hload
  exact h L₁ off L₂ (L₃ ++ [x]) (by rw [hL]; simp) hload

theorem resolved_mono {long : Option Bytes} (h : Resolved c.shape off long) (hle : c ≤ c') :
    Resolved c'.shape off long := by
  cases long with
  | none => exact hle.short off h
  | some v => exact hle.long off v h

theorem commits_append (off : ℕ) (H H' : List Event) :
    commits off (H ++ H') = commits off H + commits off H' := List.countP_append

/-- A step that is no load of the reader falls into its iteration. -/
theorem Loaded.step {t : State} {c₀ : Contents} {L₁ L₂ : List Event}
    (h : Loaded s₀ L s c i off name t c₀ L₁ L₂) (hs : Step s x s') (hch : Change c s x c' s')
    (hx : isLoad i x = false) : Loaded s₀ (L ++ [x]) s' c' i off name t c₀ L₁ (L₂ ++ [x]) := by
  refine ⟨h.split.snoc (by simp [hx]), h.before, h.after.snoc hs, h.world, h.le.trans hch.le, h.bound,
    fun hshort => ?_⟩
  rw [hch.count off (h.le.short off hshort), h.count hshort, commits_append]
  cases hc : isCommit off x
  · simp [commits, hc]
  · simp [commits, hc]
    omega

/-- The load itself begins an iteration. -/
theorem Loaded.here (hrun : RunFrom s₀ L s) (hw : World c s) (hs : Step s (.load i off) s')
    (hch : Change c s (.load i off) c' s') (hb : BoundAt c.shape name off) :
    Loaded s₀ (L ++ [.load i off]) s' c' i off name s c L [] := by
  have hstart : RunFrom s [] s := .start rfl
  refine ⟨.mk_snoc (by simp [isLoad]), hrun, hstart.snoc hs, hw, hch.le, hb, fun hshort => ?_⟩
  rw [hch.count off hshort]
  simp [isCommit, commits]

theorem Since.step {Q Q' : Contents → Prop} (h : Since s₀ L s c i off name Q) (hs : Step s x s')
    (hch : Change c s x c' s') (hx : isLoad i x = false) (hq : ∀ c₀, c₀ ≤ c → Q c₀ → Q' c₀) :
    Since s₀ (L ++ [x]) s' c' i off name Q' := by
  obtain ⟨t, c₀, L₁, L₂, hl, hQ⟩ := h
  exact ⟨t, c₀, L₁, L₂ ++ [x], hl.step hs hch hx, hq c₀ hl.le hQ⟩

/-- What a step of somebody else leaves of a read. -/
theorem ReadOk.other {rd : Seqlock.Reader} (h : ReadOk s₀ L s c i name rd) (hs : Step s x s')
    (hch : Change c s x c' s') (hx : isLoad i x = false) : ReadOk s₀ (L ++ [x]) s' c' i name rd := by
  cases rd with
  | idle => exact h
  | start off => exact BoundAt.mono h hch.le
  | load off long => exact ⟨h.1.mono hch.le, resolved_mono h.2 hch.le⟩
  | copy off long ser buf =>
    exact ⟨resolved_mono h.1 hch.le, h.2.1, h.2.2.step hs hch hx fun c₀ hle hq => hq.step hle hch⟩
  | scan off ser buf => exact ⟨h.1, h.2.step hs hch hx fun c₀ hle hq => hq.step hle hch⟩
  | check off long ser buf =>
    refine ⟨resolved_mono h.1 hch.le, h.2.step hs hch hx fun c₀ hle hq => ?_⟩
    exact hq.imp (fun hq => hq.step hle hch) id
  | called => exact h

/-- **A step of somebody else** leaves a get as it is. -/
theorem GetOk.other {g : Getting} (h : GetOk s₀ L s c i name g) (hs : Step s x s')
    (hch : Change c s x c' s') (hx : isLoad i x = false) : GetOk s₀ (L ++ [x]) s' c' i name g := by
  cases g with
  | idle => exact h
  | finding name' rest =>
    refine ⟨h.1, fun r hr => ?_⟩
    have hans := h.2 r hr
    cases r with
    | ok off => exact BoundAt.mono hans hch.le
    | error e => exact Moment.snoc hans hs
  | reading name' rd => exact ⟨h.1, h.2.other hs hch hx⟩
  | done name' r => exact ⟨h.1, fun hq => (h.2 hq.of_snoc).snoc hs⟩

/-! ### Its own steps -/

/-- `is_long` and the resolution of the long bytes. -/
theorem World.start (h : World c s) (i : ℕ) (hb : BoundAt c.shape name off) :
    ∃ long, readStep s.mem i name (.start off) = (.reading name (.load off long), .tau) ∧
      Resolved c.shape off long := by
  rcases hb.isShort_or_isLong with hs | ⟨v, hv⟩
  · refine ⟨none, ?_, hs⟩
    rw [readStep, if_neg (by simp [h.entries.isLong_short hs])]
  · obtain ⟨hser, hlong⟩ := h.long hv
    refine ⟨some v, ?_, hv⟩
    rw [readStep, if_pos (isLong_of_long hser), hlong]

/-- **The first load of an iteration.** -/
theorem ReadOk.loaded {long : Option Bytes} (hrun : RunFrom s₀ L s) (hw : World c s)
    (hs : Step s (.load i off) s') (hch : Change c s (.load i off) c' s')
    (hb : BoundAt c.shape name off) (hr : Resolved c.shape off long) :
    ReadOk s₀ (L ++ [.load i off]) s' c' i name
      (Seqlock.afterLoad off long (serial s.mem (off + 128))) := by
  have hhere := Loaded.here hrun hw hs hch hb
  have hr' := resolved_mono hr hch.le
  rw [Seqlock.afterLoad.eq_def, serialDirty_eq]
  cases long with
  | some v =>
    obtain ⟨hser, -⟩ := hw.long hr
    have hclean : ¬ decide (serial s.mem (off + 128) % 2 = 1) = true := by
      rw [hser]
      decide
    rw [if_neg hclean]
    exact ⟨hr', _, _, _, _, hhere, .inr hr⟩
  | none =>
    have hshort : IsShort c.shape off := hr
    have hgood := hw.entries.good off hshort
    obtain ⟨S, hc, hk, ⟨hd, hser, -⟩ | ⟨hd, hser, -⟩⟩ := hw.entries.serial_cases hshort
    · -- clean: the slot comes next
      have heven := hc.even
      have snap : Snap c c s.updating off S fun u => ([] : Bytes) <+: u :=
        ⟨S, hshort, hgood, hc, hk, .inl ⟨rfl, fun _ _ => List.nil_prefix⟩⟩
      rw [hser, if_neg (by simp [heven])]
      exact ⟨heven, _, _, _, _, hhere, snap.step le_rfl hch⟩
    · -- dirty: the backup copy comes next
      have heven := hc.even
      have snap : ∀ {P : Bytes → Prop}, P (c.shape.valueAt off) → Snap c c' s'.updating off (S + 1) P := by
        intro P hp
        refine Snap.step ?_ le_rfl hch
        exact ⟨S, hshort, hgood, hc, hk, .inr ⟨rfl, fun _ => ⟨hd, hp⟩⟩⟩
      rw [hser, if_pos (by simp; omega), backupLen_succ hc hgood]
      split_ifs with h0
      · exact ⟨hr', _, _, _, _, hhere, .inl (snap (List.eq_nil_of_length_eq_zero h0).symm)⟩
      · refine ⟨hr', by omega, _, _, _, _, hhere, snap ⟨List.nil_prefix, ?_⟩⟩
        exact Nat.pos_of_ne_zero h0

/-- **A second load that agrees** ends the get with what its name had at the first one. -/
theorem Since.agreed {buf : Bytes} (h : Since s₀ L s c i off name fun c₀ =>
      Snap c₀ c s.updating off (serial s.mem (off + 128)) (fun u => buf = u) ∨ IsLong c₀.shape off buf)
    (hw : World c s) (hs : Step s (.agreed i off) s') (hq : Quick i (L ++ [.agreed i off])) :
    ∃ str, fromUtf8 buf = some str ∧ Moment s₀ (L ++ [.agreed i off]) s' name (.ok str) := by
  obtain ⟨t, c₀, L₁, L₂, hl, hbuf⟩ := h
  have hlt : commits off L₂ < 2 ^ 15 := by
    refine hq L₁ off L₂ [] ?_ fun y hy => ?_
    · rw [hl.split.eq]
      simp
    · simpa using hl.split.rest y hy
  have hvalue : ∃ e, c₀.shape.lookup name = some e ∧ e.value = buf := by
    rcases hbuf with hsnap | hlong
    · obtain ⟨S, hs⟩ := hsnap
      have hcert := Snap.certified ⟨S, hs⟩ hw hl.le (hl.count hs.short) hlt
      rw [hcert]
      exact hl.bound.valueAt
    · exact hl.bound.value_of_isLong hlong
  obtain ⟨e, hlook, rfl⟩ := hvalue
  have hutf8 : Utf8.valid e.value = true := hl.world.valid name e hlook
  refine ⟨_, fromUtf8_of_valid hutf8, L₁, Event.load i off :: L₂ ++ [Event.agreed i off], t, c₀, ?_,
    hl.before, hl.after.snoc hs, hl.world, e, hlook, rfl⟩
  rw [hl.split.eq]
  simp

/-- **Its own steps** keep what a read under way has gathered. -/
theorem ReadOk.read {rd : Seqlock.Reader} (h : ReadOk s₀ L s c i name rd) (hrun : RunFrom s₀ L s)
    (hw : World c s) (hs : Step s (readStep s.mem i name rd).2 s')
    (hch : Change c s (readStep s.mem i name rd).2 c' s') :
    GetOk s₀ (L ++ [(readStep s.mem i name rd).2]) s' c' i name (readStep s.mem i name rd).1 := by
  cases rd with
  | idle => exact h.elim
  | called => exact h.elim
  | start off =>
    obtain ⟨long, heq, hr⟩ := hw.start i h
    rw [heq] at hs hch ⊢
    exact ⟨rfl, BoundAt.mono h hch.le, resolved_mono hr hch.le⟩
  | load off long => exact ⟨rfl, ReadOk.loaded hrun hw hs hch h.1 h.2⟩
  | copy off long ser buf =>
    obtain ⟨hr, hodd, hsince⟩ := h
    simp only [readStep, Seqlock.readerStep] at hs hch ⊢
    have hr' := resolved_mono hr hch.le
    simp only [List.length_append, List.length_singleton]
    split_ifs with hlt
    · refine ⟨rfl, hr', hodd, hsince.step hs hch rfl fun c₀ hle hsnap => ?_⟩
      refine Snap.step ((hw.copy hle hodd hsnap).imp hle fun u _ hlen _ _ _ hp => ⟨hp.1, ?_⟩) hle hch
      rw [List.length_append, List.length_singleton, ← hlen hodd]
      exact hlt
    · refine ⟨rfl, hr', hsince.step hs hch rfl fun c₀ hle hsnap => .inl ?_⟩
      refine Snap.step ((hw.copy hle hodd hsnap).imp hle fun u _ hlen _ _ _ hp =>
        hp.1.eq_of_length ?_) hle hch
      rw [List.length_append, List.length_singleton]
      have := hlen hodd
      omega
  | scan off ser buf =>
    obtain ⟨heven, hsince⟩ := h
    simp only [readStep, Seqlock.readerStep] at hs hch ⊢
    have hshort : IsShort c'.shape off := by
      obtain ⟨t, c₀, L₁, L₂, hl, S, hsnap⟩ := hsince
      exact hch.le.short off (hl.le.short off hsnap.short)
    split_ifs with hb hlt
    · refine ⟨rfl, hshort, hsince.step hs hch rfl fun c₀ hle hsnap => .inl ?_⟩
      refine Snap.step ((hw.scan hle heven hsnap).imp hle fun u _ _ _ _ _ hp => ?_) hle hch
      exact (hp.resolve_right fun h' => h'.1 hb).2
    · refine ⟨rfl, heven, hsince.step hs hch rfl fun c₀ hle hsnap => ?_⟩
      refine Snap.step ((hw.scan hle heven hsnap).imp hle fun u _ _ _ _ _ hp => ?_) hle hch
      exact (hp.resolve_left fun h' => hb h'.1).2
    · refine ⟨rfl, hshort, hsince.step hs hch rfl fun c₀ hle hsnap => .inl ?_⟩
      refine Snap.step ((hw.scan hle heven hsnap).imp hle fun u hgood _ _ _ _ hp => ?_) hle hch
      -- a short value never fills the slot
      have hle := (hp.resolve_left fun h' => hb h'.1).2.length_le
      have hlen := hgood.len
      rw [List.length_append, List.length_singleton] at hle
      omega
  | check off long ser buf =>
    obtain ⟨hr, hsince⟩ := h
    simp only [readStep] at hs hch ⊢
    by_cases heq : serial s.mem (off + 128) = ser
    · subst heq
      rw [if_pos rfl] at hs hch ⊢
      cases hu : fromUtf8 buf with
      | some str =>
        rw [hu] at hs
        refine ⟨rfl, fun hq => ?_⟩
        obtain ⟨str', hstr, hm⟩ := hsince.agreed hw hs hq
        obtain rfl := Option.some.inj (hu.symm.trans hstr)
        exact hm
      | none =>
        rw [hu] at hs
        refine ⟨rfl, fun hq => ?_⟩
        obtain ⟨str', hstr, -⟩ := hsince.agreed hw hs hq
        cases hu.symm.trans hstr
    · rw [if_neg heq] at hs hch ⊢
      obtain ⟨t, c₀, L₁, L₂, hl, -⟩ := hsince
      exact ⟨rfl, (hl.bound.mono hl.le).mono hch.le, resolved_mono hr hch.le⟩

/-- A load of the lookup. -/
theorem GetOk.look {o : Access} {next : o.Ans → Process Access Access.Ans (Except Error ℕ)}
    (hrun : RunFrom s₀ L s) (hw : World c s) (hr : s.reader i = .finding name (.perform o next))
    (hs : Step s x s') (hch : Change c s x c' s') :
    GetOk s₀ (L ++ [x]) s' c' i name (.finding name (next (o.act s.mem).1)) := by
  refine ⟨rfl, fun r hdone => ?_⟩
  obtain ⟨-, hobs⟩ := hw.look hr
  rw [hdone] at hobs
  cases r with
  | ok off => exact BoundAt.mono hobs hch.le
  | error e =>
    have hshows : Shows c.shape name (.error e) := hobs
    exact (Moment.now hrun hw hshows).snoc hs

/-- The end of the lookup. -/
theorem GetOk.found {r : Except Error ℕ} (h : GetOk s₀ L s c i name (.finding name (.done r)))
    (hs : Step s x s') (hch : Change c s x c' s') :
    GetOk s₀ (L ++ [x]) s' c' i name (afterFind name r) := by
  have hans := h.2 r rfl
  cases r with
  | error e => exact ⟨rfl, fun _ => Moment.snoc hans hs⟩
  | ok off =>
    have hb : BoundAt c.shape name off := hans
    have hafter : afterFind name (.ok off) = .reading name (.start off) := by
      rw [afterFind, hb.propertyInfo]
    rw [hafter]
    exact ⟨rfl, hb.mono hch.le⟩

theorem isLoad_readStep {m : Mem} {j : ℕ} {rd : Seqlock.Reader} (hj : i ≠ j) :
    isLoad i (readStep m j name rd).2 = false := by
  rcases readStep_event m j name rd with hx | ⟨_, hx⟩ | ⟨_, hx⟩ <;> rw [hx] <;>
    simp [isLoad, hj.symm]

theorem isLoad_ofUpdate (x : Seqlock.Event) : isLoad i (ofUpdate x) = false := by
  cases x <;> rfl

/-- **One step of the system** keeps what is known of a get that does not return in it. -/
theorem GetOk.step (h : GetOk s₀ L s c i name (s.reader i)) (hrun : RunFrom s₀ L s) (hw : World c s)
    (hs : Step s x s') (hch : Change c s x c' s') (hx : ∀ name r, x ≠ .got i name r) :
    GetOk s₀ (L ++ [x]) s' c' i name (s'.reader i) := by
  have other : isLoad i x = false → s'.reader i = s.reader i →
      GetOk s₀ (L ++ [x]) s' c' i name (s'.reader i) := by
    intro hl heq
    rw [heq]
    exact h.other hs hch hl
  have hstep := hs
  cases hs with
  | add => exact other rfl rfl
  | store => exact other rfl rfl
  | added => exact other rfl rfl
  | update => exact other rfl rfl
  | write => exact other (isLoad_ofUpdate _) rfl
  | @get j hr name' =>
    by_cases hj : i = j
    · -- the reader has a get under way
      rw [hj, hr] at h
      exact h.elim
    · exact other rfl (Function.update_of_ne hj _ _)
  | @look j name' o next hr =>
    by_cases hj : i = j
    · subst hj
      rw [hr] at h
      obtain rfl := h.1
      simp only [Function.update_self]
      exact GetOk.look hrun hw hr hstep hch
    · exact other rfl (Function.update_of_ne hj _ _)
  | @found j name' r hr =>
    by_cases hj : i = j
    · subst hj
      rw [hr] at h
      obtain rfl := h.1
      simp only [Function.update_self]
      exact h.found hstep hch
    · exact other rfl (Function.update_of_ne hj _ _)
  | @read j name' rd hr =>
    by_cases hj : i = j
    · subst hj
      rw [hr] at h
      obtain rfl := h.1
      simp only [Function.update_self]
      exact h.2.read hrun hw hstep hch
    · exact other (isLoad_readStep hj) (Function.update_of_ne hj _ _)
  | @got j name' r hr =>
    by_cases hj : i = j
    · exact absurd rfl (hj ▸ hx name' r)
    · exact other rfl (Function.update_of_ne hj _ _)

/-- A get that begins. -/
theorem GetOk.start (hw : World c s) (name : Bytes) :
    GetOk s [] s c i name (.finding name (Publish.find readerMap name).run) := by
  refine ⟨rfl, fun r hdone => ?_⟩
  have hobs := observes_find sized_readerMap ⟨c.toPublished⟩ name
  rw [hdone] at hobs
  cases r with
  | ok off => exact hobs
  | error e =>
    have hshows : Shows c.shape name (.error e) := hobs
    exact Moment.now (.start rfl) hw hshows

/-- **What is known of a get** all the time until it returns. -/
theorem getOk_run (hw : World c s₀)
    (hr : s₀.reader i = .finding name (Publish.find readerMap name).run) (h : RunFrom s₀ L s)
    (hi : ∀ name r, .got i name r ∉ L) :
    ∃ c', c ≤ c' ∧ World c' s ∧ GetOk s₀ L s c' i name (s.reader i) := by
  induction h with
  | @start s hs =>
    obtain rfl : s = s₀ := hs
    exact ⟨c, le_rfl, hw, hr ▸ GetOk.start hw name⟩
  | @snoc L s s' x hrun hs ih =>
    obtain ⟨c₁, hle, hw₁, hok⟩ := ih fun name r hm => hi name r (List.mem_append_left _ hm)
    obtain ⟨c₂, hw₂, hch⟩ := hw₁.step hs
    refine ⟨c₂, hle.trans hch.le, hw₂, hok.step hrun hw₁ hs hch fun name r hx => ?_⟩
    exact hi name r (List.mem_append_right _ (List.mem_singleton.mpr hx.symm))

end Under

end Shared

end RsProperties
