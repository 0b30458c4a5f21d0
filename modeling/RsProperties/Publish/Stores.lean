import RsProperties.Publish.Program

/-!
# Where the writer stores

Between two publishing stores `add` writes nothing but the `bytes_used` word and the space it has
just allocated, all of which lies behind what was in use when the new object was begun. `Quiet` is
that set of memories. A new node or entry is written inside it (`stays_newPropTrieNode`,
`stays_newPropInfo`), and of the three functions that publish, only the last operation leaves it.
-/

namespace RsProperties

open ByteMem PropertyAreaMap Process

namespace Publish

/-- The memory is as it was, but for the `bytes_used` word and the space behind `used`. -/
structure Quiet (m : Mem) (used : ℕ) (t : Mem) : Prop where
  same : SameOn m t 4 (used + 128)
  used_le : used ≤ readU32 t 0

variable {α : Type} {m t : Mem} {used : ℕ}

theorem Quiet.refl (m : Mem) : Quiet m (readU32 m 0) m := ⟨.refl _ _ _, le_rfl⟩

/-- Stores behind `used` are quiet. -/
theorem Quiet.writeBytes (h : Quiet m used t) {a : ℕ} (ha : used + 128 ≤ a) (bs : Bytes) :
    Quiet m used (writeBytes t a bs) := by
  refine ⟨h.same.trans (sameOn_writeBytes (.inl ha)).symm, ?_⟩
  rw [readU32_congr (sameOn_writeBytes (.inl (by omega)))]
  exact h.used_le

/-! ### Stretches -/

/-- Nothing is claimed of where the stretch ends. -/
abbrev QuietRun (m : Mem) (used : ℕ) (t : Mem) (p : Prog α) : Prop :=
  Stays Access.act (Quiet m used) (fun _ _ => True) t p.run

theorem stays_throw (h : Quiet m used t) (e : Error) : QuietRun m used t (throw e : Prog α) :=
  .done h trivial

theorem stays_pure (h : Quiet m used t) (a : α) : QuietRun m used t (pure a : Prog α) :=
  .done h trivial

theorem QuietRun.bind {β : Type} {p : Prog α} {f : α → Prog β} (h : QuietRun m used t p)
    (hf : ∀ t a, Quiet m used t → QuietRun m used t (f a)) : QuietRun m used t (p >>= f) :=
  h.except_bind (fun t a ht _ => hf t a ht) fun _ _ _ => trivial

/-- A check, whose outcome is known to be an address of the right place when it passes. -/
theorem QuietRun.check_bind {β : Type} {x : Except Error α} {f : α → Prog β} (h : Quiet m used t)
    (hf : ∀ a, x = .ok a → QuietRun m used t (f a)) : QuietRun m used t (check x >>= f) := by
  cases x with
  | ok a => exact hf a rfl
  | error e => exact stays_throw h e

theorem stays_store32 (h : Quiet m used t) {a : ℕ} (ha : used + 128 ≤ a) (v : ℕ) :
    QuietRun m used t (store32 a v) :=
  .perform (h.writeBytes ha _) (.done (h.writeBytes ha _) trivial)

theorem stays_storeBytes (h : Quiet m used t) {a : ℕ} (ha : used + 128 ≤ a) (bs : Bytes) :
    QuietRun m used t (storeBytes a bs) := by
  induction bs generalizing a t with
  | nil => exact stays_pure h ()
  | cons b bs ih => exact .perform (h.writeBytes ha _) (ih (h.writeBytes ha _) (by omega))

variable {pa : PropertyAreaMap}

/-- An allocation moves `bytes_used` on and returns an offset behind `used`. -/
theorem stays_allocateObj (h : Quiet m used t) (size : ℕ) : Stays Access.act (Quiet m used)
    (fun _ r => ∀ off, r = .ok off → used ≤ off) t (allocateObj pa size).run := by
  have fail : ∀ e : Error, Stays Access.act (Quiet m used)
      (fun _ r => ∀ off, r = .ok off → used ≤ off) t (throw e : Prog ℕ).run :=
    fun e => .done h (by simp)
  refine .perform h ?_
  change Stays _ _ _ t (if 2 ^ 32 ≤ bionicAlign size 4 then _ else _ : Prog ℕ).run
  split_ifs with h1 h2 h3
  · exact fail _
  · exact fail _
  · exact fail _
  · -- the header's address is 0, and the new word is larger than the old one
    have hend : ∀ a, pa.mmap.toObjectMut propertyAreaSize 4 0 0 = .ok a →
        Quiet m used (writeU32 t a (readU32 t 0 + bionicAlign size 4)) := by
      intro a ha
      obtain rfl : a = 0 := MemoryMap.toObjectMut_addr ha
      refine ⟨h.same.trans (sameOn_writeU32 (.inr le_rfl)).symm, ?_⟩
      have hr := readU32_writeU32_of_lt (m := t) (a := 0) (v := readU32 t 0 + bionicAlign size 4)
        (by change ¬ 2 ^ 32 ≤ readU32 t 0 + _ at h2; omega)
      have := h.used_le
      omega
    cases ha : pa.mmap.toObjectMut propertyAreaSize 4 0 0 with
    | error e => exact fail e
    | ok a =>
      refine .perform (hend a ha) (.done (hend a ha) ?_)
      rintro _ ⟨⟩
      exact h.used_le

/-! ### New objects -/

section Objects

variable (hd : pa.dataOffset = 128)

include hd

theorem stays_writeTrailingName (h : Quiet m used t) {off : ℕ} (hoff : used ≤ off)
    (headerSize : ℕ) (name : Bytes) :
    QuietRun m used t (writeTrailingName pa off headerSize name) := by
  rw [writeTrailingName]
  split_ifs
  · exact stays_throw h _
  · refine .check_bind h fun a ha => stays_storeBytes h ?_ _
    have := MemoryMap.dataMut_addr ha
    omega

/-- A new node is written behind `used`. -/
theorem stays_newPropTrieNode (h : Quiet m used t) (name : Bytes) :
    QuietRun m used t (newPropTrieNode pa name) := by
  refine (stays_allocateObj h _).except_bind (fun t off ht hoff => ?_) fun _ _ _ => trivial
  refine QuietRun.check_bind ht fun a ha => ?_
  have haddr : a = off + 128 := hd ▸ MemoryMap.toObjectMut_addr ha
  have hlow := hoff off rfl
  have header : QuietRun m used t (initHeader a name.length) := by
    refine (stays_store32 ht (by omega) 0).bind fun t _ ht => ?_
    refine (stays_store32 ht (by omega) 0).bind fun t _ ht => ?_
    refine (stays_store32 ht (by omega) 0).bind fun t _ ht => ?_
    exact (stays_store32 ht (by omega) 0).bind fun t _ ht => stays_store32 ht (by omega) _
  exact header.bind fun t _ ht => (stays_writeTrailingName hd ht hlow _ _).bind
    fun t _ ht => stays_pure ht off

theorem stays_writeLongValue (h : Quiet m used t) {off : ℕ} (hoff : used ≤ off) (value : Bytes) :
    QuietRun m used t (writeLongValue pa off value) := by
  refine (stays_allocateObj h _).except_bind (fun t long ht hlong => ?_) fun _ _ _ => trivial
  refine QuietRun.check_bind ht fun target htarget => ?_
  have haddr : target = long + 128 := hd ▸ MemoryMap.dataMut_addr htarget
  have := hlong long rfl
  refine (stays_storeBytes ht (by omega) _).bind fun t _ ht => ?_
  split_ifs
  · exact stays_throw ht _
  refine QuietRun.check_bind ht fun a ha => ?_
  have haddr' : a = off + 128 := hd ▸ MemoryMap.toObjectMut_addr ha
  refine (stays_store32 ht (by omega) _).bind fun t _ ht => ?_
  exact (stays_storeBytes ht (by omega) _).bind fun t _ ht => stays_store32 ht (by omega) _

theorem stays_writeShortValue (h : Quiet m used t) {off : ℕ} (hoff : used ≤ off) (value : Bytes) :
    QuietRun m used t (writeShortValue pa off value) := by
  refine .check_bind h fun a ha => ?_
  have haddr : a = off + 128 := hd ▸ MemoryMap.toObjectMut_addr ha
  exact (stays_store32 h (by omega) _).bind fun t _ ht => stays_storeBytes ht (by omega) _

/-- A new entry is written behind `used`, with its value and its name. -/
theorem stays_newPropInfo (h : Quiet m used t) (name value : Bytes) :
    QuietRun m used t (newPropInfo pa name value) := by
  refine (stays_allocateObj h _).except_bind (fun t off ht hoff => ?_) fun _ _ _ => trivial
  have hlow := hoff off rfl
  have named : ∀ t, Quiet m used t → QuietRun m used t
      (writeTrailingName pa off propertyInfoSize name >>= fun _ => pure off) := fun t ht =>
    (stays_writeTrailingName hd ht hlow _ _).bind fun t _ ht => stays_pure ht off
  change QuietRun m used t (if value.length ≥ propValueMax then _ else _)
  split_ifs
  · exact (stays_writeLongValue hd ht hlow value).bind fun t _ ht => named t ht
  · exact (stays_writeShortValue hd ht hlow value).bind fun t _ ht => named t ht

end Objects

/-! ### Publishing stores -/

/-- The store of a link, and nothing behind it. -/
theorem untilLast_storeLink {S : Mem → Prop} (t : Mem) (n : ℕ) (f : LinkField) (v : ℕ) :
    UntilLast Access.act S t (storeLink pa n f v).run := by
  rw [storeLink, nodeObject]
  cases pa.mmap.toObject trieNodeSize 4 n pa.dataOffset with
  | error e => trivial
  | ok a => exact .inl ⟨_, rfl⟩

theorem untilLast_storeLink_return {S : Mem → Prop} (t : Mem) (n : ℕ) (f : LinkField) (v : ℕ)
    (a : α) : UntilLast Access.act S t (storeLink pa n f v >>= fun _ => (pure a : Prog α)).run := by
  rw [storeLink, nodeObject]
  cases pa.mmap.toObject trieNodeSize 4 n pa.dataOffset with
  | error e => trivial
  | ok a => exact .inl ⟨_, rfl⟩

/-! The loads of a walk change nothing. -/

theorem readOnly_check (x : Except Error α) : ReadOnly Access.act (check x).run := trivial

theorem readOnly_load32 (a : ℕ) : ReadOnly Access.act (load32 a).run :=
  fun _ _ _ _ => ⟨rfl, trivial⟩

theorem readOnly_load8 (a : ℕ) : ReadOnly Access.act (load8 a).run :=
  fun _ _ _ _ => ⟨rfl, trivial⟩

theorem readOnly_pure (a : α) : ReadOnly Access.act (pure a : Prog α).run := trivial

theorem readOnly_throw (e : Error) : ReadOnly Access.act (throw e : Prog α).run := trivial

theorem readOnly_scanNul (a n : ℕ) : ReadOnly Access.act (scanNul a n).run := by
  induction n generalizing a with
  | zero => trivial
  | succ n ih =>
    refine (readOnly_load8 a).except_bind fun b => ?_
    split_ifs
    · exact readOnly_pure _
    · exact (ih (a + 1)).except_bind fun _ => readOnly_pure _

theorem readOnly_loadBytes (a n : ℕ) : ReadOnly Access.act (loadBytes a n).run := by
  induction n generalizing a with
  | zero => trivial
  | succ n ih =>
    exact (readOnly_load8 a).except_bind fun b => (ih (a + 1)).except_bind fun _ => readOnly_pure _

theorem readOnly_cmpNodeName (name : Bytes) (nodeOffset namelen : ℕ) :
    ReadOnly Access.act (cmpNodeName pa name nodeOffset namelen).run := by
  have slice : ReadOnly Access.act (trieNodeName pa nodeOffset namelen).run := by
    rw [trieNodeName]
    split_ifs
    · exact readOnly_throw _
    · exact readOnly_throw _
    refine (readOnly_check _).except_bind fun a => (readOnly_scanNul a _).except_bind fun len => ?_
    cases len <;> trivial
  refine slice.except_bind fun ⟨a, len⟩ => ?_
  change ReadOnly _ (cmpSlice name a len).run
  rw [cmpSlice]
  cases compare name.length len with
  | eq => exact (readOnly_loadBytes a len).except_bind fun _ => readOnly_pure _
  | lt => exact readOnly_pure _
  | gt => exact readOnly_pure _

section Publishing

variable (hd : pa.dataOffset = 128)

include hd

/-- Only the link store publishes a new node. -/
theorem untilLast_attach (h : Quiet m used t) (n : ℕ) (f : LinkField) (name : Bytes) :
    UntilLast Access.act (Quiet m used) t (attach pa n f name).run :=
  (stays_newPropTrieNode hd h name).untilLast_except_bind fun t new _ _ =>
    untilLast_storeLink_return t n f new new

theorem untilLast_addPropTrieNodeLoop (h : Quiet m used t) (name : Bytes) (steps offset : ℕ) :
    UntilLast Access.act (Quiet m used) t (addPropTrieNodeLoop pa name steps offset).run := by
  induction steps generalizing offset with
  | zero => trivial
  | succ steps ih =>
    -- either link leads on or takes the new node
    have descend : ∀ (a : ℕ) (f : LinkField), UntilLast Access.act (Quiet m used) t
        (load32 a >>= fun child => if child ≠ 0 then addPropTrieNodeLoop pa name steps child
          else attach pa offset f name).run := by
      intro a f
      refine (readOnly_load32 _).untilLast_except_bind h fun child => ?_
      split_ifs
      · exact ih child
      · exact untilLast_attach hd h offset f name
    refine (readOnly_check _).untilLast_except_bind h fun a => (readOnly_load32 a).untilLast_except_bind h
      fun namelen => (readOnly_cmpNodeName name offset namelen).untilLast_except_bind h fun ordering => ?_
    cases ordering with
    | eq => trivial
    | lt => exact descend _ .left
    | gt => exact descend _ .right

theorem untilLast_childrenRoot (h : Quiet m used t) (current : ℕ) (seg : Bytes) :
    UntilLast Access.act (Quiet m used) t (childrenRoot pa current seg).run := by
  refine (readOnly_check _).untilLast_except_bind h fun a => (readOnly_load32 _).untilLast_except_bind h
    fun children => ?_
  split_ifs
  · trivial
  · exact untilLast_attach hd h current .children seg

/-- Only the link store publishes a new entry. -/
theorem untilLast_bindEntry (h : Quiet m used t) (current : ℕ) (name value : Bytes) :
    UntilLast Access.act (Quiet m used) t (bindEntry pa current name value).run := by
  refine (readOnly_check _).untilLast_except_bind h fun a => (readOnly_load32 _).untilLast_except_bind h
    fun prop => ?_
  split_ifs
  · exact (stays_newPropInfo hd h name value).untilLast_except_bind fun t offset _ _ =>
      untilLast_storeLink t current .prop offset
  · trivial

end Publishing

end Publish

end RsProperties
