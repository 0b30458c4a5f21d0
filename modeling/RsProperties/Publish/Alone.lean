import RsProperties.Publish.Program

/-!
# The processes run alone

A process that nobody disturbs does what its counterpart over a whole area does: the same outcome, and
the same memory behind it. `Alone` says so of a process and an operation on an area, and the rules for
sequences carry it from the single accesses to `add`. So where a process ends can be read off the
results about the undisturbed operations; what is left to show of it is what others see on the way.
-/

namespace RsProperties

open ByteMem StateExcept PropertyAreaMap

namespace Publish

variable {α β : Type} {pa : PropertyAreaMap} {m : Mem}

/-- The end of a process as an outcome on the area. -/
def outcome (pa : PropertyAreaMap) : Except Error α × Mem → EStateM.Result Error PropertyAreaMap α
  | (.ok a, t) => .ok a (pa.withData t)
  | (.error e, t) => .error e (pa.withData t)

/-- Run alone from the memory `m`, the process does what the operation does. -/
def Alone (pa : PropertyAreaMap) (m : Mem) (p : Prog α) (x : AreaM α) : Prop :=
  x (pa.withData m) = outcome pa (Process.exec Access.act p m)

/-! ### Rules -/

theorem Alone.pure (a : α) : Alone pa m (pure a) (pure a) := rfl

theorem Alone.throw (e : Error) : Alone pa m (throw e : Prog α) (throw e) := rfl

theorem Alone.bind {p : Prog α} {x : AreaM α} {f : α → Prog β} {g : α → AreaM β}
    (h : Alone pa m p x) (hf : ∀ a t, Alone pa t (f a) (g a)) : Alone pa m (p >>= f) (x >>= g) := by
  rw [Alone] at h ⊢
  rcases hp : Process.exec Access.act p m with ⟨r, t⟩
  rw [hp] at h
  cases r with
  | ok a =>
    rw [bind_ok h, Process.exec_bind_ok hp]
    exact hf a t
  | error e =>
    rw [bind_error h, Process.exec_bind_error hp]
    rfl

theorem Alone.ite {c : Prop} [Decidable c] {p q : Prog α} {x y : AreaM α}
    (hp : c → Alone pa m p x) (hq : ¬ c → Alone pa m q y) :
    Alone pa m (if c then p else q) (if c then x else y) := by
  split_ifs with hc
  · exact hp hc
  · exact hq hc

/-- A check on the dimensions of the mapping. -/
theorem Alone.check {f : PropertyAreaMap → Except Error α} {r : Except Error α}
    (h : f (pa.withData m) = r) : Alone pa m (check r) (look f) := by
  rw [Alone, look, h]
  cases r <;> rfl

theorem Alone.store32 (a v : ℕ) : Alone pa m (store32 a v) (modifyData fun m => writeU32 m a v) := rfl

theorem exec_storeBytes (a : ℕ) (bs : Bytes) :
    Process.exec Access.act (storeBytes a bs) m = (.ok (), writeBytes m a bs) := by
  induction bs generalizing a m with
  | nil => rw [writeBytes_nil]; rfl
  | cons b bs ih =>
    rw [writeBytes_cons]
    exact ih (a + 1)

theorem Alone.storeBytes (a : ℕ) (bs : Bytes) :
    Alone pa m (storeBytes a bs) (modifyData fun m => writeBytes m a bs) := by
  rw [Alone, exec_storeBytes]
  rfl

/-! ### Names -/

theorem exec_scanNul (a n : ℕ) : Process.exec Access.act (scanNul a n) m =
    (.ok ((cstr m a n).map List.length), m) := by
  induction n generalizing a with
  | zero => rfl
  | succ n ih =>
    have hl : Process.exec Access.act (load8 a) m = (.ok (m a), m) := rfl
    rw [scanNul, Process.exec_bind_ok hl, cstr]
    split_ifs with hb
    · rfl
    · rw [Process.exec_bind_ok (ih (a + 1))]
      cases cstr m (a + 1) n <;> rfl

theorem exec_loadBytes (a n : ℕ) :
    Process.exec Access.act (loadBytes a n) m = (.ok (slice m a n), m) := by
  induction n generalizing a with
  | zero => rfl
  | succ n ih =>
    have hl : Process.exec Access.act (load8 a) m = (.ok (m a), m) := rfl
    rw [loadBytes, Process.exec_bind_ok hl, Process.exec_bind_ok (ih (a + 1)), slice_succ]
    rfl

theorem exec_cmpSlice (name : Bytes) (a len : ℕ) : Process.exec Access.act (cmpSlice name a len) m =
    (.ok ((compare name.length len).then (compare name (slice m a len))), m) := by
  rw [cmpSlice]
  cases compare name.length len with
  | lt => rfl
  | gt => rfl
  | eq => rw [Process.exec_bind_ok (exec_loadBytes a len)]; rfl

/-- A node's name: the slice found is the name the undisturbed accessor reads. -/
theorem exec_trieNodeName (nodeOffset namelen : ℕ) :
    (∃ s a, (pa.withData m).trieNodeName nodeOffset namelen = .ok s ∧ slice m a s.length = s ∧
      Process.exec Access.act (trieNodeName pa nodeOffset namelen) m = (.ok (a, s.length), m)) ∨
    (∃ e, (pa.withData m).trieNodeName nodeOffset namelen = .error e ∧
      Process.exec Access.act (trieNodeName pa nodeOffset namelen) m = (.error e, m)) := by
  rw [trieNodeName, PropertyAreaMap.trieNodeName]
  by_cases h1 : usizeMax < nodeOffset + trieNodeSize
  · rw [if_pos h1, if_pos h1]
    exact .inr ⟨_, rfl, rfl⟩
  by_cases h2 : usizeMax < namelen + 1
  · rw [if_neg h1, if_pos h2, if_neg h1, if_pos h2]
    exact .inr ⟨_, rfl, rfl⟩
  rw [if_neg h1, if_neg h2, if_neg h1, if_neg h2]
  have hd : (pa.withData m).mmap.dataAt (nodeOffset + trieNodeSize) (pa.withData m).dataOffset
      (namelen + 1) = pa.mmap.dataAt (nodeOffset + trieNodeSize) pa.dataOffset (namelen + 1) := rfl
  rw [hd]
  cases pa.mmap.dataAt (nodeOffset + trieNodeSize) pa.dataOffset (namelen + 1) with
  | error e => exact .inr ⟨e, rfl, rfl⟩
  | ok a =>
    have hscan := exec_scanNul (m := m) a (namelen + 1)
    rw [except_bind_ok rfl, Process.exec_bind_ok (a := a) rfl, Process.exec_bind_ok hscan,
      withData_data]
    cases hc : cstr m a (namelen + 1) with
    | none => exact .inr ⟨_, rfl, rfl⟩
    | some s => exact .inl ⟨s, a, rfl, slice_of_cstr hc, rfl⟩

/-- The comparison of the sibling walks. -/
theorem exec_cmpNodeName (name : Bytes) (nodeOffset namelen : ℕ) :
    Process.exec Access.act (cmpNodeName pa name nodeOffset namelen) m =
      (((pa.withData m).trieNodeName nodeOffset namelen).map (cmpPropName name), m) := by
  rw [cmpNodeName]
  rcases @exec_trieNodeName pa m nodeOffset namelen with
    ⟨s, a, hs, hsl, hr⟩ | ⟨e, he, hr⟩
  · rw [Process.exec_bind_ok hr, hs]
    simp only
    rw [exec_cmpSlice, hsl]
    rfl
  · rw [Process.exec_bind_error hr, he]
    rfl

/-- A node's address: the fields behind it are those the undisturbed accessor loads. -/
theorem exec_nodeObject (offset : ℕ) :
    (∃ a, (pa.withData m).trieNode offset = .ok (PropertyTrieNode.read m a) ∧
      Process.exec Access.act (nodeObject pa offset) m = (.ok a, m)) ∨
    (∃ e, (pa.withData m).trieNode offset = .error e ∧
      Process.exec Access.act (nodeObject pa offset) m = (.error e, m)) := by
  have hd : (pa.withData m).mmap.toObject trieNodeSize 4 offset (pa.withData m).dataOffset =
      pa.mmap.toObject trieNodeSize 4 offset pa.dataOffset := rfl
  rw [trieNode, nodeObject, hd]
  cases pa.mmap.toObject trieNodeSize 4 offset pa.dataOffset with
  | ok a => exact .inl ⟨a, rfl, rfl⟩
  | error e => exact .inr ⟨e, rfl, rfl⟩

/-! ### Lookups -/

theorem exec_load32 (a : ℕ) : Process.exec Access.act (load32 a) m = (.ok (readU32 m a), m) := rfl

theorem findPropTrieNodeLoop_alone (name : Bytes) (steps offset : ℕ) :
    Process.exec Access.act (findPropTrieNodeLoop pa name steps offset) m =
      ((pa.withData m).findPropTrieNodeLoop name steps offset, m) := by
  induction steps generalizing offset with
  | zero => rfl
  | succ steps ih =>
    rw [findPropTrieNodeLoop, PropertyAreaMap.findPropTrieNodeLoop]
    have descend : ∀ next, Process.exec Access.act (if next = 0 then throw (.notFound (display name))
        else findPropTrieNodeLoop pa name steps next : Prog ℕ) m = ((if next = 0
        then .error (.notFound (display name))
        else (pa.withData m).findPropTrieNodeLoop name steps next), m) := by
      intro next
      split_ifs
      · rfl
      · exact ih next
    rcases @exec_nodeObject pa m offset with ⟨a, hn, hr⟩ | ⟨e, hn, hr⟩
    · have hc := @exec_cmpNodeName pa m name offset (readU32 m a)
      rw [except_bind_ok hn, Process.exec_bind_ok hr, Process.exec_bind_ok (exec_load32 a)]
      simp only [PropertyTrieNode.read]
      cases hs : (pa.withData m).trieNodeName offset (readU32 m a) with
      | error e =>
        rw [hs] at hc
        rw [except_bind_error rfl, Process.exec_bind_error hc]
      | ok s =>
        rw [hs] at hc
        rw [except_bind_ok rfl, Process.exec_bind_ok (a := cmpPropName name s) hc]
        cases cmpPropName name s with
        | eq => rfl
        | lt => exact (Process.exec_bind_ok (exec_load32 _)).trans (descend _)
        | gt => exact (Process.exec_bind_ok (exec_load32 _)).trans (descend _)
    · rw [except_bind_error hn, Process.exec_bind_error hr]

theorem findLoop_alone (name : Bytes) (segs : List Bytes) (current : ℕ) :
    Process.exec Access.act (findLoop pa name segs current) m =
      ((pa.withData m).findLoop name segs current, m) := by
  induction segs generalizing current with
  | nil => rfl
  | cons seg segs ih =>
    rw [findLoop, PropertyAreaMap.findLoop]
    split_ifs with hs
    · rfl
    rcases @exec_nodeObject pa m current with ⟨a, hn, hr⟩ | ⟨e, hn, hr⟩
    · have hl : readU32 m (a + LinkField.children.offset) = (PropertyTrieNode.read m a).children := rfl
      rw [except_bind_ok hn, Process.exec_bind_ok hr, Process.exec_bind_ok (exec_load32 _), hl]
      split_ifs with h0
      · rfl
      have hw := @findPropTrieNodeLoop_alone pa m seg pa.maxIterations
        (PropertyTrieNode.read m a).children
      rw [findPropTrieNode, PropertyAreaMap.findPropTrieNode]
      change _ = ((pa.withData m).findPropTrieNodeLoop seg pa.maxIterations _ >>= _, m)
      cases hk : (pa.withData m).findPropTrieNodeLoop seg pa.maxIterations
          (PropertyTrieNode.read m a).children with
      | ok k =>
        rw [hk] at hw
        rw [except_bind_ok rfl, Process.exec_bind_ok hw]
        exact ih k
      | error e =>
        rw [hk] at hw
        rw [except_bind_error rfl, Process.exec_bind_error hw]
    · rw [except_bind_error hn, Process.exec_bind_error hr]

/-- **`find` alone** is the `find` of the undisturbed area. -/
theorem find_alone (name : Bytes) :
    Process.exec Access.act (find pa name) m = ((pa.withData m).find name, m) := by
  rw [find, PropertyAreaMap.find]
  have hw := @findLoop_alone pa m name (splitDot name) 0
  cases hk : (pa.withData m).findLoop name (splitDot name) 0 with
  | error e =>
    rw [hk] at hw
    rw [except_bind_error rfl, Process.exec_bind_error hw]
  | ok k =>
    rw [hk] at hw
    rw [except_bind_ok rfl, Process.exec_bind_ok hw]
    rcases @exec_nodeObject pa m k with ⟨a, hn, hr⟩ | ⟨e, hn, hr⟩
    · have hl : readU32 m (a + LinkField.prop.offset) = (PropertyTrieNode.read m a).prop := rfl
      have hd : ∀ off, (pa.withData m).propertyInfo off = pa.propertyInfo off := fun _ => rfl
      rw [except_bind_ok hn, Process.exec_bind_ok hr, Process.exec_bind_ok (exec_load32 _), hl]
      split_ifs with h0
      · rw [hd]
        cases pa.propertyInfo (PropertyTrieNode.read m a).prop <;> rfl
      · rfl
    · rw [except_bind_error hn, Process.exec_bind_error hr]

/-! ### The writer -/

/-- The `bytes_used` word is loaded by the one and seen as part of the area by the other. -/
theorem Alone.loadUsed {f : ℕ → Prog α} {k : PropertyAreaMap → AreaM α}
    (h : Alone pa m (f (readU32 m 0)) (k (pa.withData m))) :
    Alone pa m (load32 0 >>= f) (get >>= k) := h

theorem allocateObj_alone (size : ℕ) :
    Alone pa m (allocateObj pa size) (PropertyAreaMap.allocateObj size) := by
  refine .loadUsed (.ite (fun _ => .throw _) fun _ => .ite (fun _ => .throw _) fun _ => .ite
    (fun _ => .throw _) fun _ => ?_)
  exact (Alone.check rfl).bind fun a _ => (Alone.store32 a _).bind fun _ _ => .pure _

theorem writeTrailingName_alone (objOffset headerSize : ℕ) (name : Bytes) :
    Alone pa m (writeTrailingName pa objOffset headerSize name)
      (PropertyAreaMap.writeTrailingName objOffset headerSize name) :=
  .ite (fun _ => .throw _) fun _ => (Alone.check rfl).bind fun a _ => .storeBytes a _

theorem initHeader_alone (a namelen : ℕ) : Alone pa m (initHeader a namelen)
    (modifyData fun m => PropertyTrieNode.initHeader m a namelen) := rfl

theorem newPropTrieNode_alone (name : Bytes) :
    Alone pa m (newPropTrieNode pa name) (PropertyAreaMap.newPropTrieNode name) :=
  (allocateObj_alone _).bind fun off _ => (Alone.check rfl).bind fun a _ =>
    (initHeader_alone a _).bind fun _ _ => (writeTrailingName_alone _ _ _).bind fun _ _ => .pure off

theorem storeLink_alone (nodeOffset : ℕ) (field : LinkField) (target : ℕ) :
    Alone pa m (storeLink pa nodeOffset field target)
      (PropertyAreaMap.storeLink nodeOffset field target) :=
  (Alone.check rfl).bind fun _ _ => .store32 _ _

theorem initWithLongOffset_alone (a offset : ℕ) : Alone pa m (initWithLongOffset a offset)
    (modifyData fun m => PropertyInfo.initWithLongOffset m a offset) := by
  have h1 : ∀ t, Process.exec Access.act (store32 a (longLegacyError.length <<< 24 ||| longFlag)) t =
      (.ok (), writeU32 t a (longLegacyError.length <<< 24 ||| longFlag)) := fun _ => rfl
  rw [Alone, initWithLongOffset, Process.exec_bind_ok (h1 m),
    Process.exec_bind_ok (exec_storeBytes _ _)]
  rfl

theorem initWithValue_alone (a : ℕ) (value : Bytes) : Alone pa m (initWithValue a value)
    (modifyData fun m => PropertyInfo.initWithValue m a value) := by
  have h1 : ∀ t v, Process.exec Access.act (store32 a v) t = (.ok (), writeU32 t a v) :=
    fun _ _ => rfl
  rw [Alone, initWithValue, Process.exec_bind_ok (h1 m _), exec_storeBytes]
  rfl

theorem writeLongValue_alone (newOffset : ℕ) (value : Bytes) :
    Alone pa m (writeLongValue pa newOffset value)
      (PropertyAreaMap.writeLongValue newOffset value) := by
  refine (allocateObj_alone _).bind fun long _ => (Alone.check rfl).bind fun target _ =>
    (Alone.storeBytes _ _).bind fun _ _ => .ite (fun _ => .throw _) fun _ => ?_
  exact (Alone.check rfl).bind fun a _ => initWithLongOffset_alone a _

theorem writeShortValue_alone (newOffset : ℕ) (value : Bytes) :
    Alone pa m (writeShortValue pa newOffset value)
      (PropertyAreaMap.writeShortValue newOffset value) :=
  (Alone.check rfl).bind fun a _ => initWithValue_alone a value

theorem newPropInfo_alone (name value : Bytes) :
    Alone pa m (newPropInfo pa name value) (PropertyAreaMap.newPropInfo name value) := by
  refine (allocateObj_alone _).bind fun off _ => .ite (fun _ => ?_) fun _ => ?_
  · exact (writeLongValue_alone off value).bind fun _ _ =>
      (writeTrailingName_alone _ _ _).bind fun _ _ => .pure off
  · exact (writeShortValue_alone off value).bind fun _ _ =>
      (writeTrailingName_alone _ _ _).bind fun _ _ => .pure off

theorem attach_alone (nodeOffset : ℕ) (field : LinkField) (name : Bytes) :
    Alone pa m (attach pa nodeOffset field name)
      (PropertyAreaMap.newPropTrieNode name >>= fun new =>
        PropertyAreaMap.storeLink nodeOffset field new >>= fun _ => pure new) :=
  (newPropTrieNode_alone name).bind fun new _ => (storeLink_alone _ _ _).bind fun _ _ => .pure new

/-- A node's address checked, with its fields still to load. -/
theorem Alone.loadNode {offset : ℕ} {p : ℕ → Prog α} {k : PropertyTrieNode → AreaM α}
    (h : ∀ a, Alone pa m (p a) (k (PropertyTrieNode.read m a))) :
    Alone pa m (nodeObject pa offset >>= p) (look (fun pa => pa.trieNode offset) >>= k) := by
  rcases @exec_nodeObject pa m offset with ⟨a, hn, hp⟩ | ⟨e, hn, hp⟩
  · rw [Alone, bind_ok (look_ok hn), Process.exec_bind_ok hp]
    exact h a
  · rw [Alone, bind_error (look_error hn), Process.exec_bind_error hp]
    rfl

/-- The walk of `add`. -/
theorem addPropTrieNodeLoop_alone (name : Bytes) (steps offset : ℕ) :
    Alone pa m (addPropTrieNodeLoop pa name steps offset)
      (PropertyAreaMap.addPropTrieNodeLoop name steps offset) := by
  induction steps generalizing offset with
  | zero => rfl
  | succ steps ih =>
    refine .loadNode fun a => ?_
    have hc := @exec_cmpNodeName pa m name offset (readU32 m a)
    rw [Alone, Process.exec_bind_ok (exec_load32 a)]
    simp only [PropertyTrieNode.read]
    cases hn : (pa.withData m).trieNodeName offset (readU32 m a) with
    | error e =>
      rw [hn] at hc
      rw [bind_error (look_error hn), Process.exec_bind_error hc]
      rfl
    | ok s =>
      rw [hn] at hc
      rw [bind_ok (look_ok hn), Process.exec_bind_ok (a := cmpPropName name s) hc]
      cases cmpPropName name s with
      | eq => rfl
      | lt => exact Alone.ite (fun _ => ih _) fun _ => attach_alone offset .left name
      | gt => exact Alone.ite (fun _ => ih _) fun _ => attach_alone offset .right name

theorem addPropTrieNode_alone (trieOffset : ℕ) (name : Bytes) :
    Alone pa m (addPropTrieNode pa trieOffset name)
      (PropertyAreaMap.addPropTrieNode trieOffset name) :=
  addPropTrieNodeLoop_alone name _ _

theorem childrenRoot_alone (current : ℕ) (seg : Bytes) :
    Alone pa m (childrenRoot pa current seg) (PropertyAreaMap.childrenRoot current seg) :=
  .loadNode fun _ => .ite (fun _ => .pure _) fun _ => attach_alone current .children seg

theorem addLoop_alone (segs : List Bytes) (current : ℕ) :
    Alone pa m (addLoop pa segs current) (PropertyAreaMap.addLoop segs current) := by
  induction segs generalizing current m with
  | nil => rfl
  | cons seg segs ih =>
    exact (childrenRoot_alone current seg).bind fun root _ =>
      (addPropTrieNode_alone root seg).bind fun current _ => ih current

theorem bindEntry_alone (current : ℕ) (name value : Bytes) :
    Alone pa m (bindEntry pa current name value)
      (look (fun pa => pa.trieNode current) >>= fun node =>
        if node.prop = 0 then PropertyAreaMap.newPropInfo name value >>= fun offset =>
          PropertyAreaMap.storeLink current .prop offset
        else pure ()) :=
  .loadNode fun _ => .ite (fun _ => (newPropInfo_alone name value).bind fun off _ =>
    storeLink_alone current .prop off) fun _ => .pure ()

/-- **`add` alone** is the `add` of the undisturbed area. -/
theorem add_alone (name value : Bytes) :
    Alone pa m (add pa name value) (PropertyAreaMap.add name value) :=
  (Alone.check rfl).bind fun _ _ => .ite (fun _ => .throw _) fun _ =>
    (addLoop_alone _ _).bind fun current _ => bindEntry_alone current name value

end Publish

end RsProperties
