import RsProperties.Publish.Contents
import RsProperties.Publish.Program

/-!
# A lookup beside the writer

`find` under interference: whatever the published shape has grown to when an access comes to be
performed, it loads what that shape says. So a comparison sees the whole segment of a published node,
a link leads to a published node or says that the shape at that moment has none, and the offset rises
by at least a node header from node to node, which the step bound covers. So a lookup ends with what an
undisturbed one returns under the shape of the moment of its last load (`observes_find`).
-/

namespace RsProperties

open ByteMem PropertyAreaMap Process

/-! ### What the bytes say of a published tree -/

/-- What the sibling link on the side of the search says: the descent ends here, or it goes on at a
node further behind. -/
def LeadsOn (t : SearchTree Bytes ℕ) (seg : Bytes) (off next : ℕ) : Prop :=
  next = 0 ∧ t.find? cmpPropName seg = none ∨
    ∃ s, (s, next) ∈ t.descent cmpPropName seg ∧ off + 20 ≤ next

theorem LeadsOn.left {l r : SearchTree Bytes ℕ} {k seg : Bytes} {o off next : ℕ}
    (hc : cmpPropName seg k = .lt) (h : LeadsOn l seg off next) :
    LeadsOn (.node k o l r) seg off next := by
  refine h.imp ?_ ?_
  · rw [SearchTree.find?, hc]
    exact id
  · rintro ⟨s, hs, hle⟩
    exact ⟨s, by simp [SearchTree.descent, hc, hs], hle⟩

theorem LeadsOn.right {l r : SearchTree Bytes ℕ} {k seg : Bytes} {o off next : ℕ}
    (hc : cmpPropName seg k = .gt) (h : LeadsOn r seg off next) :
    LeadsOn (.node k o l r) seg off next := by
  refine h.imp ?_ ?_
  · rw [SearchTree.find?, hc]
    exact id
  · rintro ⟨s, hs, hle⟩
    exact ⟨s, by simp [SearchTree.descent, hc, hs], hle⟩

/-- The root link of a subtree on the descent. -/
theorem Rising.leadsOn {t : SearchTree Bytes ℕ} {off : ℕ} (h : Rising (off + 20) t) (seg : Bytes) :
    LeadsOn t seg off (rootOff t) := by
  cases t with
  | nil => exact .inl ⟨rfl, rfl⟩
  | node s o l r => exact .inr ⟨s, List.mem_cons_self, h.1⟩

/-- The link a search follows from a node on its descent. -/
theorem TreeAt.leadsOn {m : Mem} {t : SearchTree Bytes ℕ} {lo : ℕ} (h : TreeAt m t)
    (hr : Rising lo t) {seg s : Bytes} {off : ℕ} {f : LinkField}
    (hp : (s, off) ∈ t.descent cmpPropName seg)
    (hside : cmpPropName seg s = .lt ∧ f = .left ∨ cmpPropName seg s = .gt ∧ f = .right) :
    LeadsOn t seg off (linkAt m off f) := by
  induction t generalizing lo with
  | nil => simp [SearchTree.descent] at hp
  | node k o l r ihl ihr =>
    obtain ⟨-, hleft, hright, hl, hrt⟩ := h
    obtain ⟨-, hrl, hrr⟩ := hr
    simp only [SearchTree.descent, List.mem_cons, Prod.mk.injEq] at hp
    rcases hp with ⟨rfl, rfl⟩ | hp
    · -- the search stands at the root
      rcases hside with ⟨hc, rfl⟩ | ⟨hc, rfl⟩
      · exact hleft ▸ (hrl.leadsOn seg).left hc
      · exact hright ▸ (hrr.leadsOn seg).right hc
    · cases hc : cmpPropName seg k with
      | lt =>
        simp only [hc] at hp
        exact (ihl hl hrl hp).left hc
      | gt =>
        simp only [hc] at hp
        exact (ihr hrt hrr hp).right hc
      | eq => simp [hc] at hp

namespace Publish

/-! ### Single accesses -/

/-- A check that passes is no access. -/
theorem check_ok_bind {α β : Type} (a : α) (f : α → Prog β) : check (.ok a) >>= f = f a := rfl

section Accesses

variable {γ : Type} [Preorder γ] {I : γ → Mem → Prop} {c : γ}

theorem observes_load32 {Q : γ → Except Error ℕ → Prop} {a : ℕ}
    (h : ∀ c' m, c ≤ c' → I c' m → Q c' (.ok (readU32 m a))) :
    Observes Access.act I Q c (load32 a).run := fun c' m hle hm => ⟨rfl, h c' m hle hm⟩

/-- The load of a link. -/
theorem observes_link {Q : γ → Except Error ℕ → Prop} {n : ℕ} {f : LinkField}
    (h : ∀ c' m, c ≤ c' → I c' m → Q c' (.ok (linkAt m n f))) :
    Observes Access.act I Q c (load32 (n + 128 + f.offset)).run := observes_load32 h

theorem observes_load8 {Q : γ → Except Error UInt8 → Prop} {a : ℕ}
    (h : ∀ c' m, c ≤ c' → I c' m → Q c' (.ok (m a))) :
    Observes Access.act I Q c (load8 a).run := fun c' m hle hm => ⟨rfl, h c' m hle hm⟩

/-- The scan for the terminator of a string that stays in place. -/
theorem observes_scanNul {s : Bytes} {a n : ℕ} (h0 : 0 ∉ s) (hn : s.length < n)
    (hs : ∀ c' m, c ≤ c' → I c' m → Holds m a (s ++ [0])) :
    Observes Access.act I (fun _ r => r = .ok (some s.length)) c (scanNul a n).run := by
  induction s generalizing a n c with
  | nil =>
    obtain ⟨n, rfl⟩ : ∃ k, n = k + 1 := ⟨n - 1, by simp only [List.length_nil] at hn; omega⟩
    rw [scanNul]
    refine Observes.except_bind (Q := fun _ r => r = .ok 0)
      (observes_load8 fun c' m hle hm => congrArg _ (hs c' m hle hm 0 (by simp))) ?_ (by simp)
    rintro c' b - ⟨⟩
    exact rfl
  | cons b s ih =>
    obtain ⟨n, rfl⟩ : ∃ k, n = k + 1 := ⟨n - 1, by simp only [List.length_cons] at hn; omega⟩
    simp only [List.mem_cons, not_or] at h0
    rw [scanNul]
    refine Observes.except_bind (Q := fun _ r => r = .ok b)
      (observes_load8 fun c' m hle hm => congrArg _ (holds_cons.mp (hs c' m hle hm)).1) ?_ (by simp)
    rintro c' _ hle ⟨⟩
    rw [if_neg (Ne.symm h0.1)]
    refine (ih h0.2 (by simpa using hn) fun c'' m hle' hm =>
      (holds_cons.mp (hs c'' m (hle.trans hle') hm)).2).except_bind ?_ (by simp)
    rintro c'' _ - ⟨⟩
    exact rfl

/-- The bytes of a slice that stays in place. -/
theorem observes_loadBytes {s : Bytes} {a : ℕ} (hs : ∀ c' m, c ≤ c' → I c' m → Holds m a s) :
    Observes Access.act I (fun _ r => r = .ok s) c (loadBytes a s.length).run := by
  induction s generalizing a c with
  | nil => exact rfl
  | cons b s ih =>
    rw [List.length_cons, loadBytes]
    refine Observes.except_bind (Q := fun _ r => r = .ok b)
      (observes_load8 fun c' m hle hm => congrArg _ (holds_cons.mp (hs c' m hle hm)).1) ?_ (by simp)
    rintro c' _ hle ⟨⟩
    refine (ih fun c'' m hle' hm =>
      (holds_cons.mp (hs c'' m (hle.trans hle') hm)).2).except_bind ?_ (by simp)
    rintro c'' _ - ⟨⟩
    exact rfl

/-- `cmp_prop_name` with a slice that stays in place. -/
theorem observes_cmpSlice {name s : Bytes} {a : ℕ} (hs : ∀ c' m, c ≤ c' → I c' m → Holds m a s) :
    Observes Access.act I (fun _ r => r = .ok (cmpPropName name s)) c
      (cmpSlice name a s.length).run := by
  have hcmp : cmpPropName name s = (compare name.length s.length).then (compare name s) := rfl
  rw [cmpSlice, hcmp]
  cases compare name.length s.length with
  | lt => exact rfl
  | gt => exact rfl
  | eq =>
    refine (observes_loadBytes hs).except_bind ?_ (by simp)
    rintro c' _ - ⟨⟩
    exact rfl

end Accesses

/-- The dimensions of a mapping of an area file, whoever maps it. -/
structure Sized (pa : PropertyAreaMap) : Prop where
  size : pa.mmap.size = 131072
  dataOffset : pa.dataOffset = 128
  dataSize : pa.paDataSize = 130944

section Nodes

variable {pa : PropertyAreaMap} {c : Skeleton}

theorem Sized.size_le (h : Sized pa) : pa.mmap.size ≤ usizeMax := by
  rw [h.size]
  decide

theorem Sized.nodeObject (h : Sized pa) {n : ℕ} (hn : c.shape.IsNode n) :
    nodeObject pa n = check (.ok (n + 128)) := by
  have hlt := c.wf.node_lt hn c.low
  have hmod := c.wf.node_mod hn
  have hfits := c.fits
  rw [Publish.nodeObject, h.dataOffset]
  refine congrArg _ (MemoryMap.toObject_eq_ok h.size_le ?_ (by omega))
  rw [h.size, trieNodeSize]
  omega

theorem Sized.propertyInfo (h : Sized pa) {n : ℕ} {e : Entry} (he : c.shape.entry n = some e) :
    pa.propertyInfo e.off = .ok (e.off + 128) := by
  have hb := c.wf.entry_block n e he
  have hmod := c.wf.layout.aligned _ hb
  have hstop := c.wf.layout.high _ hb
  have hge := entryExtent_ge (joinDot (c.shape.path n))
  have hfits := c.fits
  simp only [Block.stop, Obj.extent] at hmod hstop
  rw [PropertyAreaMap.propertyInfo, h.dataOffset]
  refine MemoryMap.toObject_eq_ok h.size_le ?_ (by omega)
  rw [h.size, propertyInfoSize, propValueMax]
  omega

/-- What the bytes say of a skeleton. -/
abbrev Skeletal (c : Skeleton) (m : Mem) : Prop := Linked m c.shape

/-- A published node is in place, with its whole segment. -/
theorem Linked.nodeAt {m : Mem} (h : Linked m c.shape) {n : ℕ} {p : Bytes × ℕ}
    (hp : p ∈ (c.shape.kids n).toList) : NodeAt m p.2 p.1 := (h.tree n).nodeAt hp

/-- The comparison with a published node sees its whole segment. -/
theorem observes_cmpNodeName (h : Sized pa) (name : Bytes) {n off : ℕ} {s seg : Bytes}
    (hp : (s, off) ∈ (c.shape.kids n).descent cmpPropName seg) :
    Observes Access.act Skeletal (fun _ r => r = .ok (cmpPropName name s)) c
      (cmpNodeName pa name off s.length).run := by
  have hb := c.wf.kid_block n _ (SearchTree.mem_toList_of_mem_descent hp)
  have hstop := c.wf.layout.high _ hb
  have hge := nodeExtent_ge s
  have hfits := c.fits
  have h0 := (c.wf.seg_ok off s hb).2.1
  simp only [Block.stop, Obj.extent] at hstop
  have hat : ∀ c' m, c ≤ c' → Skeletal c' m → Holds m (off + 20 + 128) (s ++ [0]) :=
    fun c' m hle hm => (hm.nodeAt (SearchTree.mem_toList_of_mem_descent
      ((hle.descent n seg).subset hp))).2
  have hd : pa.mmap.dataAt (off + trieNodeSize) pa.dataOffset (s.length + 1) =
      .ok (off + 20 + 128) := by
    rw [h.dataOffset]
    exact MemoryMap.dataAt_eq_ok h.size_le (by rw [h.size, trieNodeSize]; omega)
  have hname : Observes Access.act Skeletal (fun _ r => r = .ok (off + 20 + 128, s.length)) c
      (trieNodeName pa off s.length).run := by
    rw [trieNodeName, if_neg (by rw [usizeMax, trieNodeSize]; omega),
      if_neg (by rw [usizeMax]; omega), hd,
      check_ok_bind]
    refine (observes_scanNul h0 (Nat.lt_succ_self _) hat).except_bind ?_ (by simp)
    rintro c' _ - ⟨⟩
    exact rfl
  rw [cmpNodeName]
  refine hname.except_bind ?_ (by simp)
  rintro c' _ hle ⟨⟩
  exact observes_cmpSlice fun c'' m hle' hm => (holds_append.mp (hat c'' m (hle.trans hle') hm)).1

/-! ### The walks -/

/-- What the sibling walk below `n` returns under the contents it ends in. -/
def Walked (n : ℕ) (seg : Bytes) (c : Skeleton) : Except Error ℕ → Prop
  | .ok k => (c.shape.kids n).find? cmpPropName seg = some k
  | .error e => e = .notFound (display seg) ∧ (c.shape.kids n).find? cmpPropName seg = none

/-- **The sibling walk of `find`** beside the writer, from a node on the descent. -/
theorem observes_findPropTrieNodeLoop (h : Sized pa) {seg s : Bytes} {n off steps : ℕ}
    (hp : (s, off) ∈ (c.shape.kids n).descent cmpPropName seg)
    (hsteps : 130944 < steps * 20 + off) :
    Observes Access.act Skeletal (Walked n seg) c
      (findPropTrieNodeLoop pa seg steps off).run := by
  induction steps generalizing c off s with
  | zero =>
    have hn := c.wf.isNode_kid (SearchTree.mem_toList_of_mem_descent hp)
    have := c.wf.node_lt hn c.low
    have := c.fits
    simp only at *
    omega
  | succ steps ih =>
    have hn := c.wf.isNode_kid (SearchTree.mem_toList_of_mem_descent hp)
    rw [findPropTrieNodeLoop, h.nodeObject hn, check_ok_bind]
    refine Observes.except_bind (Q := fun _ r => r = .ok s.length)
      (observes_load32 fun c' m hle hm => congrArg _ (hm.nodeAt
        (SearchTree.mem_toList_of_mem_descent ((hle.descent n seg).subset hp))).1) ?_ (by simp)
    rintro c1 _ hle1 ⟨⟩
    have hp1 := (hle1.descent n seg).subset hp
    refine (observes_cmpNodeName h seg hp1).except_bind ?_ (by simp)
    rintro c2 _ hle2 ⟨⟩
    have hp2 := (hle2.descent n seg).subset hp1
    -- the link is loaded from whatever the tree has become by then
    have load : ∀ f : LinkField, (cmpPropName seg s = .lt ∧ f = .left ∨ cmpPropName seg s = .gt ∧ f = .right) →
        Observes Access.act Skeletal (Walked n seg) c2
          (load32 (off + 128 + f.offset) >>= fun next => if next = 0
            then throw (.notFound (display seg)) else findPropTrieNodeLoop pa seg steps next).run := by
      intro f hside
      refine Observes.except_bind
        (Q := fun c r => ∃ next, r = .ok next ∧ LeadsOn (c.shape.kids n) seg off next)
        (observes_link fun c3 m hle3 hm => ⟨_, rfl, (hm.tree n).leadsOn (c3.wf.rising n)
          ((hle3.descent n seg).subset hp2) hside⟩) ?_ (by simp)
      rintro c3 _ - ⟨next, ⟨⟩, hnext⟩
      rcases hnext with ⟨rfl, hnone⟩ | ⟨s', hs', hle⟩
      · exact ⟨rfl, hnone⟩
      · rw [if_neg (by omega)]
        exact ih hs' (by omega)
    cases hc : cmpPropName seg s with
    | eq =>
      obtain rfl := Std.LawfulEqCmp.eq_of_compare hc
      exact SearchTree.find?_eq_some_iff_mem_descent.mpr hp2
    | lt => exact load .left (.inl ⟨hc, rfl⟩)
    | gt => exact load .right (.inr ⟨hc, rfl⟩)

/-- **The segment loop of `find`** beside the writer. -/
theorem observes_findLoop (h : Sized pa) (name : Bytes) {segs : List Bytes} {n : ℕ}
    (hn : c.shape.IsNode n) : Observes Access.act Skeletal
      (fun c r => r = c.shape.descend name segs n) c (findLoop pa name segs n).run := by
  induction segs generalizing c n with
  | nil => exact rfl
  | cons seg segs ih =>
    rw [findLoop]
    by_cases hs : seg.length = 0
    · rw [if_pos hs]
      change _ = c.shape.descend name (seg :: segs) n
      rw [Shape.descend, if_pos hs]
    rw [if_neg hs, h.nodeObject hn, check_ok_bind]
    refine Observes.except_bind (Q := fun c r => r = .ok (rootOff (c.shape.kids n)))
      (observes_link fun c' m hle hm => by rw [hm.children n (hle.isNode hn)]) ?_ (by simp)
    rintro c1 _ hle1 ⟨⟩
    by_cases h0 : rootOff (c1.shape.kids n) = 0
    · rw [if_pos h0]
      change _ = c1.shape.descend name (seg :: segs) n
      rw [Shape.descend, if_neg hs, if_pos h0]
    rw [if_neg h0]
    have hroot : ∃ s, (s, rootOff (c1.shape.kids n)) ∈
        (c1.shape.kids n).descent cmpPropName seg := by
      cases hk : c1.shape.kids n with
      | nil => exact absurd ((c1.wf.rootOff_eq_zero n).mpr hk) h0
      | node s o l r => exact ⟨s, List.mem_cons_self⟩
    obtain ⟨s, hs'⟩ := hroot
    refine (observes_findPropTrieNodeLoop h hs' ?_).except_bind ?_ ?_
    · rw [maxIterations, h.dataSize, trieNodeSize]
      omega
    · intro c2 k _ hk
      -- the segment stays passed while the rest of the name is followed
      refine (ih (c2.wf.isNode_kid (SearchTree.mem_toList_of_find? hk))).mono fun c3 r hle3 hr => ?_
      rw [hr, c3.wf.descend_cons (hle3.find hk)]
    · rintro c2 _ hle2 ⟨rfl, hnone⟩
      have hroot : rootOff (c2.shape.kids n) ≠ 0 := by
        rw [Ne, c2.wf.rootOff_eq_zero]
        intro hnil
        have hmem := (hle2.descent n seg).subset hs'
        rw [hnil] at hmem
        cases hmem
      rw [Shape.descend, if_neg hs, if_neg hroot, hnone]

/-- What a lookup of the name returns under the shape it ends in. -/
def Found (name : Bytes) (g : Shape) : Except Error ℕ → Prop
  | .ok off => ∃ e, g.lookup name = some e ∧ e.off = off
  | .error e => g.find name = .error e

theorem found_iff {g : Shape} {used : ℕ} (hw : g.Wf used) {name : Bytes} {r : Except Error ℕ} :
    Found name g r ↔ r = g.find name := by
  cases r with
  | ok off => rw [eq_comm, hw.find_eq_ok_iff, Found]
  | error e => rw [eq_comm, Found]

/-- **`find` beside a writer** ends as an undisturbed one at the moment of its last load. -/
theorem observes_find (h : Sized pa) (c : Skeleton) (name : Bytes) :
    Observes Access.act Skeletal (fun c => Found name c.shape) c (find pa name).run := by
  rw [find]
  refine (observes_findLoop h name (.inl rfl)).except_bind ?_ ?_
  · intro c1 k hle1 hd
    have hk := c1.wf.descend_eq_ok_iff.mp hd.symm
    obtain ⟨hkn, -⟩ := c1.wf.walk_eq_some_iff.mp hk
    rw [h.nodeObject hkn, check_ok_bind]
    refine Observes.except_bind
      (Q := fun c r => r = .ok (((c.shape.entry k).map Entry.off).getD 0))
      (observes_link fun c' m hle hm => by rw [hm.prop k (hle.isNode hkn)]) ?_ (by simp)
    rintro c2 _ hle2 ⟨⟩
    have hd2 : c2.shape.descend name (splitDot name) 0 = .ok k :=
      c2.wf.descend_eq_ok_iff.mpr (hle2.walk hk)
    cases he : c2.shape.entry k with
    | none =>
      change c2.shape.find name = .error (.notFound (display name))
      rw [Shape.find, StateExcept.except_bind_ok hd2, he]
    | some e =>
      have hlow := c2.wf.layout.low _ (c2.wf.entry_block k e he)
      simp only [Option.map_some, Option.getD_some]
      simp only at hlow
      rw [if_pos (by omega), h.propertyInfo he]
      refine ⟨e, ?_, rfl⟩
      rw [Shape.lookup, hle2.walk hk]
      exact he
  · intro c1 e hle1 hd
    change c1.shape.find name = .error e
    rw [Shape.find, StateExcept.except_bind_error hd.symm]

end Nodes

end Publish

end RsProperties
