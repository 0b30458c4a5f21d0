import RsProperties.Publish.Alone
import RsProperties.Publish.Contents
import RsProperties.Publish.Stores

/-!
# The writer beside its readers

`add` one access at a time keeps the published contents growing. Each of its publishing functions
(`childrenRoot`, `add_prop_trie_node` and what it does at the name's node) stays quiet until its last
operation, so that every state before it holds the old contents, and the state behind it is the one
the undisturbed function ends in, whose shape is known from `PropertyArea.Add`. So every single state
of `add` holds some published contents, and where it returns `Ok` the name is bound in them.
-/

namespace RsProperties

open ByteMem StateExcept PropertyAreaMap Process

namespace AreaInv

variable {pa pa' : PropertyAreaMap} {g : Shape} {a : ℕ}

/-- A link store keeps the entries and the backup slot. -/
theorem kept_of_same {m' : Mem} (h : AreaInv pa g)
    (ha : g.IsNode a) (hs : ∀ x y, 4 ≤ x → y ≤ pa.bytesUsed + 128 → y ≤ a + 132 ∨ a + 148 ≤ x →
      SameOn pa.mmap.data m' x y) : Publish.Kept g pa.mmap.data m' := by
  have hlow := h.basic.used_low
  refine ⟨hs _ _ (by omega) (by omega) ?_, (h.keeps_of_same ha ⟨m', rfl⟩ hs).block⟩
  rcases ha with rfl | ⟨seg, hb⟩
  · exact .inr le_rfl
  · have := h.wf.layout.low _ hb
    simp only at this
    exact .inl (by omega)

theorem kept_attached {f : LinkField} {seg : Bytes} (h : AreaInv pa g) (hat : Attached pa pa' a f seg) (ha : g.IsNode a) :
    Publish.Kept g pa.mmap.data pa'.mmap.data := by
  obtain ⟨h1, h2⟩ := f.offset_bounds
  exact h.kept_of_same ha fun x y hx hy hxy => hat.same x y hx hy (by omega)

theorem kept_grown {used : ℕ} (h : AreaInv pa g)
    (hg : Grown pa pa' used) : Publish.Kept g pa.mmap.data pa'.mmap.data := by
  have hlow := h.basic.used_low
  exact ⟨hg.same.mono (by omega) (by omega), (h.keeps_grown hg).block⟩

end AreaInv

namespace Publish

variable {α : Type} {pa : PropertyAreaMap} {calls : Bytes → Bytes → Prop} {c : Framed} {m : Mem}

/-- What every state on the way satisfies. -/
def Keeping (calls : Bytes → Bytes → Prop) (c : Published) (m : Mem) : Prop :=
  Stored c m ∧ c.From calls

/-- The same, over contents that remember their entries. -/
def Anchored (calls : Bytes → Bytes → Prop) (c : Framed) (m : Mem) : Prop :=
  Keeping calls c.toPublished m ∧ Kept c.shape c.mem m

/-- The writer is between two publishing functions: the invariant of the writers holds of the
published shape. -/
structure Settled (pa : PropertyAreaMap) (calls : Bytes → Bytes → Prop) (c : Framed) (m : Mem) :
    Prop where
  inv : AreaInv (pa.withData m) c.shape
  values : c.From calls
  kept : Kept c.shape c.mem m

theorem Settled.dataOffset (h : Settled pa calls c m) : pa.dataOffset = 128 := h.inv.basic.dataOffset

/-- A function of the writer ends settled, on larger contents with the property. -/
def Ends (c : Framed) (calls : Bytes → Bytes → Prop) (Q : Published → Except Error α → Prop) :
    EStateM.Result Error PropertyAreaMap α → Prop
  | .ok a pa' => ∃ c', c.toPublished ≤ c' ∧ AreaInv pa' c'.shape ∧ c'.From calls ∧
      Kept c.shape c.mem pa'.mmap.data ∧ Q c' (.ok a)
  | .error e pa' => ∃ c', c.toPublished ≤ c' ∧ AreaInv pa' c'.shape ∧ c'.From calls ∧
      Kept c.shape c.mem pa'.mmap.data ∧ Q c' (.error e)

/-- The obligation of a function of the writer. -/
abbrev Publishes (pa : PropertyAreaMap) (calls : Bytes → Bytes → Prop)
    (Q : Published → Except Error α → Prop) (c : Framed) (m : Mem) (p : Prog α) : Prop :=
  Maintains Access.act (Anchored calls) (fun c' t r => Settled pa calls c' t ∧ Q c'.toPublished r)
    c m p.run

theorem Settled.used_eq (h : Settled pa calls c m) : c.used = readU32 m 0 := by
  have h1 := c.wf.layout.total
  have h2 := h.inv.wf.layout.total
  exact h1.symm.trans h2

theorem Settled.anchored (h : Settled pa calls c m) : Anchored calls c m :=
  ⟨⟨h.inv.rep, h.values⟩, h.kept⟩

/-- The contents may be taken to remember the present entries. -/
theorem Settled.here (h : Settled pa calls c m) : Settled pa calls ⟨c.toPublished, m⟩ m :=
  ⟨h.inv, h.values, .refl _ _⟩

theorem Settled.quiet (h : Settled pa calls c m) {t : Mem} (ht : Quiet m (readU32 m 0) t) :
    Anchored calls c t := by
  have hsame := ht.same
  rw [← h.used_eq] at hsame
  have hlow := c.low
  refine ⟨⟨Stored.of_sameOn h.inv.rep hsame, h.values⟩, h.kept.trans ⟨?_, fun b hb _ => ?_⟩
    (List.Subset.refl _)⟩
  · exact hsame.mono (by omega) (by omega)
  · have := c.wf.layout.high b hb
    exact hsame.mono (by omega) (by omega)

/-- **A publishing function**: quiet until its last operation, and ending as the undisturbed function
does. -/
theorem Settled.publishes {p : Prog α} {x : AreaM α} {Q : Published → Except Error α → Prop}
    (h : Settled pa calls c m) (hu : UntilLast Access.act (Quiet m (readU32 m 0)) m p.run)
    (hx : Alone pa m p x) (hend : Ends c calls Q (x (pa.withData m))) :
    Publishes pa calls Q c m p := by
  refine (hu.mono fun t => h.quiet).maintains h.anchored ?_
  rw [hx] at hend
  change ∃ c' : Framed, c ≤ c' ∧ Anchored calls c' (Process.exec Access.act p m).2 ∧
    Settled pa calls c' (Process.exec Access.act p m).2 ∧
    Q c'.toPublished (Process.exec Access.act p m).1
  rcases hr : Process.exec Access.act p m with ⟨r, t⟩
  rw [hr] at hend
  cases r with
  | ok a =>
    obtain ⟨c', hle, hinv, hfrom, hkept, hQ⟩ := hend
    exact ⟨⟨c', t⟩, ⟨hle, hkept⟩, ⟨⟨hinv.rep, hfrom⟩, .refl _ _⟩, ⟨hinv, hfrom, .refl _ _⟩, hQ⟩
  | error e =>
    obtain ⟨c', hle, hinv, hfrom, hkept, hQ⟩ := hend
    exact ⟨⟨c', t⟩, ⟨hle, hkept⟩, ⟨⟨hinv.rep, hfrom⟩, .refl _ _⟩, ⟨hinv, hfrom, .refl _ _⟩, hQ⟩

theorem Publishes.bind {β : Type} {p : Prog α} {f : α → Prog β} {Q : Published → Except Error α → Prop}
    {R : Published → Except Error β → Prop} (h : Publishes pa calls Q c m p)
    (hok : ∀ (c' : Framed) t a, c ≤ c' → Settled pa calls c' t → Q c'.toPublished (.ok a) →
      Publishes pa calls R c' t (f a))
    (herr : ∀ c' e, Q c' (.error e) → R c' (.error e)) : Publishes pa calls R c m (p >>= f) :=
  Maintains.except_bind h (fun c' t a hle _ hr => hok c' t a hle hr.1 hr.2)
    fun c' _ e _ _ hr => ⟨hr.1, herr c'.toPublished e hr.2⟩

/-- What the published contents say of a function of the writer. -/
theorem Publishes.published {p : Prog α} {Q : Published → Except Error α → Prop}
    (h : Publishes pa calls Q c m p) : Maintains Access.act (Keeping calls)
      (fun c' t r => Settled pa calls ⟨c', t⟩ t ∧ Q c' r) c.toPublished m p.run :=
  Maintains.map (f := Framed.toPublished) (fun _ _ hle => hle.1) (fun _ _ h => h.1)
    (fun _ _ _ hr => ⟨hr.1.here, hr.2⟩) h

/-! ### Nodes -/

/-- A shape without a new binding has the values it had. -/
theorem Settled.values_of_extends {g' : Shape} {pa' : PropertyAreaMap} (h : Settled pa calls c m)
    (hext : c.shape.Extends g') (hinv : AreaInv pa' g') : (Published.ofInv hinv).From calls := by
  intro name e hl
  change g'.lookup name = some e at hl
  rw [hext.lookup_eq h.inv.wf hinv.wf] at hl
  exact h.values name e hl

/-- The root of the sibling tree below `n` is there when `childrenRoot` returns. -/
theorem publishes_childrenRoot (h : Settled pa calls c m) {n : ℕ} (hn : c.shape.IsNode n)
    {seg : Bytes} (hseg : seg ≠ [] ∧ 0 ∉ seg ∧ dot ∉ seg) :
    Publishes pa calls (fun c' r => ∀ root, r = .ok root → c'.shape.kids n ≠ .nil ∧
      root = rootOff (c'.shape.kids n)) c m (childrenRoot pa n seg) := by
  refine h.publishes (untilLast_childrenRoot h.dataOffset (.refl m) n seg)
    (childrenRoot_alone n seg) ?_
  have hroot := h.inv.childrenRoot_spec hn hseg
  generalize PropertyAreaMap.childrenRoot n seg (pa.withData m) = res at hroot ⊢
  cases hroot with
  | found hne => exact ⟨c.toPublished, le_rfl, h.inv, h.values, h.kept, by rintro _ ⟨⟩; exact ⟨hne, rfl⟩⟩
  | full hnil he => exact ⟨c.toPublished, le_rfl, h.inv, h.values, h.kept, by simp⟩
  | created hnil hat hinv hkids =>
    have hext := Shape.Extends.grow h.inv.wf h.inv.basic.used_low n seg
    refine ⟨.ofInv hinv, .grow h.inv.wf h.inv.basic.used_low n seg, hinv,
      h.values_of_extends hext hinv,
      h.kept.trans (h.inv.kept_attached hat hn) (List.Subset.refl _), ?_⟩
    rintro _ ⟨⟩
    change (c.shape.grow n seg _).kids n ≠ .nil ∧ _ = rootOff ((c.shape.grow n seg _).kids n)
    rw [hkids]
    exact ⟨by simp, rfl⟩

/-- The segment's node is there when `add_prop_trie_node` returns. -/
theorem publishes_addPropTrieNode (h : Settled pa calls c m) {n : ℕ} (hn : c.shape.IsNode n)
    (hne : c.shape.kids n ≠ .nil) {seg : Bytes} (hseg : seg ≠ [] ∧ 0 ∉ seg ∧ dot ∉ seg) :
    Publishes pa calls
      (fun c' r => ∀ k, r = .ok k → (c'.shape.kids n).find? cmpPropName seg = some k) c m
      (addPropTrieNode pa (rootOff (c.shape.kids n)) seg) := by
  refine h.publishes (untilLast_addPropTrieNodeLoop h.dataOffset (.refl m) seg _ _)
    (addPropTrieNode_alone _ seg) ?_
  have hwalk := h.inv.addPropTrieNode_spec seg hne
  generalize PropertyAreaMap.addPropTrieNode (rootOff (c.shape.kids n)) seg (pa.withData m) = res
    at hwalk ⊢
  cases hwalk with
  | found hk => exact ⟨c.toPublished, le_rfl, h.inv, h.values, h.kept, by rintro _ ⟨⟩; exact hk⟩
  | full hf he => exact ⟨c.toPublished, le_rfl, h.inv, h.values, h.kept, by simp⟩
  | attached hf hat ha hfield htree =>
    have hext := Shape.Extends.grow h.inv.wf h.inv.basic.used_low n seg
    have hinv := h.inv.attach_sibling hn hseg hf hat ha hfield htree
    refine ⟨.ofInv hinv, .grow h.inv.wf h.inv.basic.used_low n seg, hinv,
      h.values_of_extends hext hinv,
      h.kept.trans (h.inv.kept_attached hat (c.wf.isNode_kid ha)) (List.Subset.refl _), ?_⟩
    rintro _ ⟨⟩
    change SearchTree.find? cmpPropName seg ((c.shape.grow n seg _).kids n) = _
    rw [show (c.shape.grow n seg (pa.withData m).bytesUsed).kids n = _ from Function.update_self _ _ _]
    exact SearchTree.find?_insert_self hf

/-- **The segment loop of `add`** ends at the node of the path. -/
theorem publishes_addLoop (h : Settled pa calls c m) {n : ℕ} (hn : c.shape.IsNode n)
    {segs : List Bytes} (hsegs : ∀ s ∈ segs, s ≠ [] ∧ 0 ∉ s ∧ dot ∉ s) :
    Publishes pa calls (fun c' r => ∀ k, r = .ok k → c'.shape.IsNode k ∧
      c'.shape.path k = c.shape.path n ++ segs) c m (addLoop pa segs n) := by
  induction segs generalizing c m n with
  | nil =>
    refine ⟨c, le_rfl, h.anchored, h, ?_⟩
    rintro _ ⟨⟩
    exact ⟨hn, by simp⟩
  | cons seg segs ih =>
    have hseg := hsegs seg (by simp)
    rw [addLoop]
    refine (publishes_childrenRoot h hn hseg).bind (fun c1 t1 root hle1 h1 hroot => ?_) (by simp)
    obtain ⟨hne, rfl⟩ := hroot root rfl
    have hn1 := hle1.1.isNode hn
    refine (publishes_addPropTrieNode h1 hn1 hne hseg).bind (fun c2 t2 k hle2 h2 hk => ?_) (by simp)
    obtain ⟨hkn, hkp⟩ := (c2.wf.find_kid_iff (hle2.1.isNode hn1)).mp (hk k rfl)
    have hpath : c2.shape.path k ++ segs = c.shape.path n ++ (seg :: segs) := by
      rw [hkp, hle2.1.path n hn1, hle1.1.path n hn, List.append_assoc]
      rfl
    rw [← hpath]
    exact ih h2 hkn fun s hs => hsegs s (List.mem_cons_of_mem _ hs)

/-! ### Entries -/

/-- **At the name's node**, a name without an entry gets one. -/
theorem publishes_bindEntry (h : Settled pa calls c m) {k : ℕ} {name value : Bytes}
    (hk : c.shape.IsNode k) (hk0 : k ≠ 0) (hname : joinDot (c.shape.path k) = name)
    (hv : 0 ∉ value) (hcall : calls name value) :
    Publishes pa calls (fun c' r => r = .ok () → ∃ e, c'.shape.lookup name = some e) c m
      (bindEntry pa k name value) := by
  refine h.publishes (untilLast_bindEntry h.dataOffset (.refl m) k name value)
    (bindEntry_alone k name value) ?_
  have hlow := h.inv.basic.used_low
  obtain ⟨node, hload, -, hprop⟩ := h.inv.trieNode_eq hk
  rw [bind_ok (look_ok hload), hprop]
  cases he : c.shape.entry k with
  | some e =>
    have hpos := (h.inv.entry_bounds he).2.1
    simp only [Option.map_some, Option.getD_some]
    rw [if_neg (by omega)]
    exact ⟨c.toPublished, le_rfl, h.inv, h.values, h.kept, fun _ =>
      ⟨e, c.wf.lookup_eq_some_iff.mpr ⟨k, he, hname⟩⟩⟩
  | none =>
    simp only [Option.map_none, Option.getD_none, if_true]
    rcases newPropInfo_spec h.inv.basic name value with
      ⟨e, -, hr⟩ | ⟨-, e, pa', -, hr, hg⟩ | ⟨pa', hr, hg, hat⟩
    · rw [bind_error hr]
      exact ⟨c.toPublished, le_rfl, h.inv, h.values, h.kept, by simp⟩
    · -- the stranded entry is allocated and linked from nowhere
      rw [bind_error hr]
      have hw : (c.shape.alloc ⟨(pa.withData m).bytesUsed, .entry name⟩).Wf
          ((pa.withData m).bytesUsed + entryExtent name) :=
        h.inv.wf.alloc (by simp) h.inv.basic.used_mod hlow
      have hinv := h.inv.of_grown hg hw rfl rfl rfl fun n hn => Shape.isNode_alloc_entry.mp hn
      exact ⟨.ofInv hinv, .alloc _ _, hinv, h.values_of_extends (.alloc _ _) hinv,
        h.kept.trans (h.inv.kept_grown hg) (List.Subset.refl _), by simp⟩
    · obtain ⟨hst, hinv1, hinv⟩ := h.inv.publishEntry hk hk0 hname hv hg hat
      rw [bind_ok hr, hst]
      obtain ⟨-, hpath, hentry, hnode, -, -, hsub⟩ :=
        c.shape.allocEntry_fields (pa.withData m).bytesUsed name value
      have hext : c.shape.Extends (c.shape.allocEntry (pa.withData m).bytesUsed name value) :=
        ⟨hsub, fun n _ => congrFun hpath n, hentry⟩
      have hused : (pa'.withData (publishedProp pa'.mmap.data k
          (pa.withData m).bytesUsed)).bytesUsed = pa'.bytesUsed :=
        readU32_writeU32_of_disjoint (by simp only [LinkField.offset]; omega)
      have hlook := hinv1.wf.lookup_bindEntry (hused ▸ hinv.wf)
      rw [hpath, hname, hext.lookup_eq h.inv.wf hinv1.wf] at hlook
      have hstore : Kept (c.shape.allocEntry (pa.withData m).bytesUsed name value) pa'.mmap.data
          (publishedProp pa'.mmap.data k (pa.withData m).bytesUsed) :=
        hinv1.kept_of_same ((hnode k).mpr hk) fun x y _ _ hxy =>
          (sameOn_writeU32 (by simp only [LinkField.offset]; omega)).symm
      refine ⟨.ofInv hinv, Shape.Grows.trans (.allocEntry _ _ _ _)
        (.bindEntry (congrFun hentry k ▸ he) _), hinv, fun name' e' hl => ?_,
        h.kept.trans ((h.inv.kept_grown hg).trans hstore hsub) (List.Subset.refl _), fun _ => ?_⟩
      · change (Shape.bindEntry _ _ _).lookup name' = some e' at hl
        rw [hlook, Function.update_apply] at hl
        split_ifs at hl with hn
        · obtain rfl := Option.some.inj hl
          exact hn ▸ hcall
        · exact h.values name' e' hl
      · exact ⟨_, (congrFun hlook name).trans (Function.update_self _ _ _)⟩

/-- **`add` beside its readers**: every single state holds some published contents, and the name is
bound in them where `add` returns `Ok`. -/
theorem publishes_add (h : Settled pa calls c m) {name value : Bytes} (hv : 0 ∉ value)
    (hcall : calls name value) :
    Publishes pa calls (fun c' r => r = .ok () → ∃ e, c'.shape.lookup name = some e) c m
      (add pa name value) := by
  have stop : ∀ e : Error, Publishes pa calls
      (fun c' r => r = .ok () → ∃ e, c'.shape.lookup name = some e) c m (throw e : Prog Unit) :=
    fun e => ⟨c, le_rfl, h.anchored, h, by simp⟩
  rw [add]
  cases hnul : validateNoInteriorNul "property name" name with
  | error e => exact stop e
  | ok _ =>
    have h0 : 0 ∉ name := validateNoInteriorNul_eq_ok.mp hnul
    change Publishes pa calls _ c m (if _ then _ else _)
    by_cases hp : ProperName name
    · rw [if_neg fun hc => (properName_iff h0).mp hc hp]
      have hsegs : ∀ s ∈ splitDot name, s ≠ [] ∧ 0 ∉ s ∧ dot ∉ s := fun s hs =>
        ⟨hp.2 s hs, fun hm => h0 ((mem_of_mem_splitDot hs).1 0 hm), (mem_of_mem_splitDot hs).2⟩
      refine (publishes_addLoop h (.inl rfl) hsegs).bind (fun c1 t1 k _ h1 hk => ?_) (by simp)
      obtain ⟨hkn, hkp⟩ := hk k rfl
      rw [c.wf.path_root, List.nil_append] at hkp
      have hk0 : k ≠ 0 := by
        rintro rfl
        rw [c1.wf.path_root] at hkp
        exact splitDot_ne_nil name hkp.symm
      exact publishes_bindEntry h1 hkn hk0 (by rw [hkp, joinDot_splitDot]) hv hcall
    · rw [if_pos ((properName_iff h0).mpr hp)]
      exact stop _

end Publish

end RsProperties
