import RsProperties.PropertyArea.Refinement
import Mathlib.Algebra.BigOperators.Group.Finset.Basic

/-!
# The space of a property area

An `add` of an unbound name takes the nodes of the name's segments that are not there yet, then the
entry, then an out-of-line value. So the space a list of properties takes is a function of the set of
segment paths of their names and of the properties themselves (`spaceOf`), and does not depend on
the order in which they are added.

A failed `add` keeps what it has allocated. The nodes are found again by a retry; an entry whose long
value does not fit is linked from nowhere, and a retry allocates another one.
-/

namespace RsProperties

open ByteMem StateExcept PropertyAreaMap

/-! ### Segment paths -/

/-- The paths that extend `p` along the segments, the shortest first. -/
def pathsFrom (p : List Bytes) : List Bytes → List (List Bytes)
  | [] => []
  | seg :: segs => (p ++ [seg]) :: pathsFrom (p ++ [seg]) segs

/-- The distinct non-empty segment paths of the names. -/
def pathsOf (l : List (Bytes × Bytes)) : Finset (List Bytes) :=
  (l.flatMap fun p => pathsFrom [] (splitDot p.1)).toFinset

/-- The space of the node at the end of a path. -/
def pathExtent (q : List Bytes) : ℕ := nodeExtent (q.getLastD [])

/-- The `bytes_used` of an area that holds exactly the properties of the list. -/
def spaceOf (l : List (Bytes × Bytes)) : ℕ :=
  112 + ∑ q ∈ pathsOf l, pathExtent q + (l.map fun p => boundExtent p.1 p.2).sum

theorem mem_pathsFrom {p q segs : List Bytes} :
    q ∈ pathsFrom p segs ↔ ∃ q', q' ≠ [] ∧ q' <+: segs ∧ q = p ++ q' := by
  induction segs generalizing p with
  | nil =>
    simp only [pathsFrom, List.not_mem_nil, List.prefix_nil, false_iff]
    rintro ⟨q', hne, rfl, -⟩
    exact hne rfl
  | cons seg segs ih =>
    rw [pathsFrom, List.mem_cons, ih]
    constructor
    · rintro (rfl | ⟨q', -, hq', rfl⟩)
      · exact ⟨[seg], by simp, by simp, rfl⟩
      · exact ⟨seg :: q', by simp, by simpa using hq', by simp⟩
    · rintro ⟨q', hne, hq', rfl⟩
      cases q' with
      | nil => exact absurd rfl hne
      | cons s q' =>
        obtain ⟨rfl, htail⟩ := List.cons_prefix_cons.mp hq'
        by_cases hnil : q' = []
        · exact .inl (by rw [hnil])
        · exact .inr ⟨q', hnil, htail, by simp⟩

theorem nodup_pathsFrom (p segs : List Bytes) : (pathsFrom p segs).Nodup := by
  induction segs generalizing p with
  | nil => exact List.nodup_nil
  | cons seg segs ih =>
    refine List.nodup_cons.mpr ⟨fun hmem => ?_, ih _⟩
    obtain ⟨q', hne, -, hq⟩ := mem_pathsFrom.mp hmem
    exact hne (List.self_eq_append_right.mp hq)

@[simp]
theorem pathExtent_snoc (p : List Bytes) (seg : Bytes) : pathExtent (p ++ [seg]) = nodeExtent seg := by
  simp [pathExtent]

theorem sum_pathsFrom (p segs : List Bytes) :
    ((pathsFrom p segs).map pathExtent).sum = nodesExtent segs := by
  induction segs generalizing p with
  | nil => rfl
  | cons seg segs ih =>
    rw [pathsFrom, List.map_cons, List.sum_cons, ih, pathExtent_snoc, nodesExtent, nodesExtent,
      List.map_cons, List.sum_cons]

theorem pathsOf_perm {l l' : List (Bytes × Bytes)} (h : l.Perm l') : pathsOf l = pathsOf l' :=
  List.toFinset_eq_of_perm _ _ (h.flatMap_right _)

theorem spaceOf_perm {l l' : List (Bytes × Bytes)} (h : l.Perm l') : spaceOf l = spaceOf l' := by
  rw [spaceOf, spaceOf, pathsOf_perm h, (h.map _).sum_eq]

/-- One more property needs the nodes that are not there yet, and its entry. -/
theorem spaceOf_snoc (l : List (Bytes × Bytes)) (p : Bytes × Bytes) :
    spaceOf (l ++ [p]) = spaceOf l + (((pathsFrom [] (splitDot p.1)).filter
      (· ∉ pathsOf l)).map pathExtent).sum + boundExtent p.1 p.2 := by
  have hpaths : pathsOf (l ++ [p]) = pathsOf l ∪ (pathsFrom [] (splitDot p.1)).toFinset := by
    simp [pathsOf, List.flatMap_append]
  have hnew : (pathsFrom [] (splitDot p.1)).toFinset \ pathsOf l =
      ((pathsFrom [] (splitDot p.1)).filter (· ∉ pathsOf l)).toFinset := by
    ext q
    simp
  have hsum : ∑ q ∈ pathsOf (l ++ [p]), pathExtent q = ∑ q ∈ pathsOf l, pathExtent q +
      (((pathsFrom [] (splitDot p.1)).filter (· ∉ pathsOf l)).map pathExtent).sum := by
    rw [hpaths, ← Finset.union_sdiff_self_eq_union, Finset.sum_union Finset.disjoint_sdiff, hnew,
      List.sum_toFinset _ ((nodup_pathsFrom _ _).filter _)]
  rw [spaceOf, spaceOf, hsum, List.map_append, List.sum_append]
  simp only [List.map_cons, List.map_nil, List.sum_cons, List.sum_nil]
  omega

theorem spaceOf_le_append (l l' : List (Bytes × Bytes)) : spaceOf l ≤ spaceOf (l ++ l') := by
  induction l' using List.reverseRecOn with
  | nil => rw [List.append_nil]
  | append_singleton l' p ih =>
    rw [← List.append_assoc, spaceOf_snoc]
    omega

/-- The missing nodes of a name are its paths that are not there. -/
theorem Shape.Wf.sum_missing {g : Shape} {used : ℕ} (h : g.Wf used) {S : Finset (List Bytes)}
    (hS : ∀ q, g.HasPath q ↔ q = [] ∨ q ∈ S) {n : ℕ} (hn : g.IsNode n) (segs : List Bytes) :
    (((pathsFrom (g.path n) segs).filter (· ∉ S)).map pathExtent).sum =
      nodesExtent (g.missing n segs) := by
  induction segs generalizing n with
  | nil => rfl
  | cons seg segs ih =>
    have hmem : g.HasPath (g.path n ++ [seg]) ↔ g.path n ++ [seg] ∈ S := by simp [hS]
    cases hf : (g.kids n).find? cmpPropName seg with
    | some k =>
      obtain ⟨hk, hp⟩ := (h.find_kid_iff hn).mp hf
      have hin : g.path n ++ [seg] ∈ S := hmem.mp ⟨k, hk, hp⟩
      rw [pathsFrom, List.filter_cons_of_neg (by simpa using hin), ← hp, ih hk, Shape.missing, hf]
    | none =>
      -- nothing below a missing node is there
      have hout : ¬ g.HasPath (g.path n ++ [seg]) := by
        rintro ⟨k, hk⟩
        rw [(h.find_kid_iff hn).mpr hk] at hf
        cases hf
      have hall : ∀ q ∈ pathsFrom (g.path n) (seg :: segs), q ∉ S := by
        intro q hq hqS
        obtain ⟨q', hne, hq', rfl⟩ := mem_pathsFrom.mp hq
        obtain ⟨s, q', rfl⟩ := List.exists_cons_of_ne_nil hne
        obtain ⟨rfl, -⟩ := List.cons_prefix_cons.mp hq'
        refine hout (h.hasPath_prefix ((hS _).mpr (.inr hqS)) ⟨q', by simp⟩)
      rw [List.filter_eq_self.mpr (by simpa using hall), sum_pathsFrom, Shape.missing, hf]

/-! ### Adding a list of properties -/

/-- `add` for every pair, in order. -/
def addAll : List (Bytes × Bytes) → AreaM Unit
  | [] => return ()
  | p :: ps => do
    add p.1 p.2
    addAll ps

/-- The area holds exactly the properties of the list, and no block besides what they need. -/
structure Accounted (l : List (Bytes × Bytes)) (pa : PropertyAreaMap) (g : Shape) : Prop where
  inv : AreaInv pa g
  used_eq : pa.bytesUsed = spaceOf l
  hasPath : ∀ q, g.HasPath q ↔ q = [] ∨ q ∈ pathsOf l
  toMap : ∀ name value, g.toMap name = some value ↔ (name, value) ∈ l

theorem accounted_newRw : Accounted [] newRw .empty := by
  refine ⟨areaInv_newRw, by decide +kernel, fun q => ?_, fun name value => ?_⟩
  · constructor
    · rintro ⟨n, -, rfl⟩
      exact .inl rfl
    · rintro (rfl | hq)
      · exact ⟨0, .inl rfl, rfl⟩
      · simp [pathsOf] at hq
  · rw [toMap_empty]
    simp

section Accounting

variable {pa : PropertyAreaMap} {g : Shape} {l : List (Bytes × Bytes)} {name value : Bytes}

/-- The nodes one more name needs, as the area sees them. -/
theorem Accounted.spaceOf_snoc (h : Accounted l pa g) (name value : Bytes) :
    spaceOf (l ++ [(name, value)]) = pa.bytesUsed +
      nodesExtent (g.missing 0 (splitDot name)) + boundExtent name value := by
  have hsum := h.inv.wf.sum_missing h.hasPath (.inl rfl) (splitDot name)
  rw [h.inv.wf.path_root] at hsum
  rw [RsProperties.spaceOf_snoc, hsum, h.used_eq]

theorem FullCause.lt {pa' : PropertyAreaMap} {g' : Shape} {e : Error}
    (h : FullCause pa pa' g g' name value e) : 130944 < pa.bytesUsed +
      nodesExtent (g.missing 0 (splitDot name)) + boundExtent name value := by
  rw [boundExtent]
  cases h with
  | @node done rest seg hm _ hused he =>
    have hfull := he.full
    rw [hm, nodesExtent, List.map_append, List.sum_append, List.map_cons, List.sum_cons]
    rw [hused, nodesExtent] at hfull
    omega
  | entry _ hused he =>
    have hfull := he.full
    omega
  | long hv _ hused he =>
    have hfull := he.full
    rw [if_pos hv]
    omega

/-- **One more property**: it is added exactly when it fits. -/
theorem Accounted.add (h : Accounted l pa g) (hname : ProperName name) (hv : 0 ∉ value)
    (hnew : ∀ v, (name, v) ∉ l) :
    (∃ pa' g', PropertyAreaMap.add name value pa = .ok () pa' ∧
      Accounted (l ++ [(name, value)]) pa' g') ∨
    (130944 < spaceOf (l ++ [(name, value)]) ∧
      ∃ e pa', PropertyAreaMap.add name value pa = .error e pa') := by
  have hspec := h.inv.add_spec name hv
  generalize PropertyAreaMap.add name value pa = res at hspec ⊢
  cases hspec with
  | refused hn => exact absurd hname hn
  | full _ he => exact .inr ⟨h.spaceOf_snoc name value ▸ he.lt, _, _, rfl⟩
  | @kept _ _ e _ hl =>
    have hm : g.toMap name = some e.value := by rw [Shape.toMap, hl]; rfl
    exact absurd ((h.toMap name e.value).mp hm) (hnew _)
  | @bound pa' g' off _ hl hinv _ _ hlookup hused hpath =>
    refine .inl ⟨pa', g', rfl, hinv, ?_, fun q => ?_, fun name' value' => ?_⟩
    · rw [hused, h.spaceOf_snoc]
    · rw [hpath, h.hasPath]
      have hsnoc : pathsOf (l ++ [(name, value)]) =
          pathsOf l ∪ (pathsFrom [] (splitDot name)).toFinset := by
        simp [pathsOf, List.flatMap_append]
      rw [hsnoc, Finset.mem_union, List.mem_toFinset, mem_pathsFrom]
      by_cases hq : q = []
      · simp [hq]
      · simp [hq]
    · rw [toMap_eq_update hlookup, Function.update_apply, List.mem_append, List.mem_singleton]
      split_ifs with hn
      · subst hn
        simp only [hnew, false_or, Prod.mk.injEq, true_and, Option.some.injEq]
        exact eq_comm
      · rw [h.toMap]
        simp [hn]

end Accounting

/-- **All properties of a list** are added exactly when they fit. -/
theorem Accounted.addAll {pa : PropertyAreaMap} {g : Shape} {l l' : List (Bytes × Bytes)}
    (h : Accounted l pa g) (hname : ∀ p ∈ l', ProperName p.1) (hv : ∀ p ∈ l', 0 ∉ p.2)
    (hd : ((l ++ l').map Prod.fst).Nodup) :
    (spaceOf (l ++ l') ≤ 130944 ∧ ∃ pa' g', RsProperties.addAll l' pa = .ok () pa' ∧
      Accounted (l ++ l') pa' g') ∨
    (130944 < spaceOf (l ++ l') ∧ ∃ e pa', RsProperties.addAll l' pa = .error e pa') := by
  induction l' generalizing pa g l with
  | nil =>
    rw [List.append_nil]
    exact .inl ⟨h.used_eq ▸ h.inv.basic.used_high, pa, g, rfl, h⟩
  | cons p ps ih =>
    have hsplit : l ++ p :: ps = l ++ [p] ++ ps := by simp
    have hnew : ∀ v, (p.1, v) ∉ l := by
      intro v hmem
      have hfst : p.1 ∈ l.map Prod.fst := List.mem_map.mpr ⟨_, hmem, rfl⟩
      rw [List.map_append, List.map_cons] at hd
      exact (List.nodup_append.mp hd).2.2 p.1 hfst p.1 (by simp) rfl
    rw [hsplit, RsProperties.addAll]
    rcases h.add (hname p (by simp)) (hv p (by simp)) hnew with
      ⟨pa1, g1, hr, h1⟩ | ⟨hfull, e, pa', hr⟩
    · rw [bind_ok hr]
      exact ih h1 (fun q hq => hname q (List.mem_cons_of_mem _ hq))
        (fun q hq => hv q (List.mem_cons_of_mem _ hq)) (hsplit ▸ hd)
    · rw [bind_error hr]
      exact .inr ⟨hfull.trans_le (spaceOf_le_append _ ps), e, pa', rfl⟩

/-! ### In-place updates -/

/-- An in-place update of the entry at an offset. -/
structure Update where
  off : ℕ
  backup : Bytes
  value : Bytes

/-- The updates, in order; a refused one leaves what it has written. -/
def applyUpdates (pa : PropertyAreaMap) (ups : List Update) : PropertyAreaMap :=
  ups.foldl (fun pa u => finalState (backupAndApplyWrite u.off u.backup u.value pa)) pa

/-- An in-place update, with any value, allocates nothing. -/
theorem PropertyAreaMap.Basic.update {pa : PropertyAreaMap} (h : pa.Basic) {off : ℕ}
    (hm : off % 4 = 0) (hb : off + 96 ≤ 130944) (backup value : Bytes) :
    (finalState (backupAndApplyWrite off backup value pa)).Basic ∧
      (finalState (backupAndApplyWrite off backup value pa)).bytesUsed = pa.bytesUsed := by
  rw [backupAndApplyWrite]
  rcases setDirtyBackupArea_spec h backup with ⟨-, err, hr⟩ | ⟨hlen, hr⟩
  · rw [bind_error hr]
    exact ⟨h, rfl⟩
  have hs : SameOn pa.mmap.data (writeBytes pa.mmap.data 148 (backup ++ [0])) 0 4 :=
    sameOn_backup hlen (by omega)
  have h1 := h.withData_of_sameOn hs
  rw [bind_ok hr]
  rcases applyWriteAt_spec h1 hm hb value with ⟨-, err, hr'⟩ | ⟨-, hv, hr'⟩
  · rw [hr']
    exact ⟨h1, (readU32_congr hs).symm⟩
  · have hs' := hs.trans (sameOn_appliedWrite (a := off + 128) hv (.inl (by omega)))
    rw [hr']
    exact ⟨h.withData_of_sameOn hs', (readU32_congr hs').symm⟩

theorem PropertyAreaMap.Basic.applyUpdates {pa : PropertyAreaMap} (h : pa.Basic)
    {ups : List Update} (hups : ∀ u ∈ ups, u.off % 4 = 0 ∧ u.off + 96 ≤ 130944) :
    (applyUpdates pa ups).bytesUsed = pa.bytesUsed := by
  induction ups generalizing pa with
  | nil => rfl
  | cons u ups ih =>
    obtain ⟨hm, hb⟩ := hups u (by simp)
    obtain ⟨h1, hused⟩ := h.update hm hb u.backup u.value
    exact (ih h1 fun u' hu' => hups u' (List.mem_cons_of_mem _ hu')).trans hused

/-! ### The order of adds -/

/-- The name is found and reads the value. -/
def PropertyAreaMap.Reads (pa : PropertyAreaMap) (name value : Bytes) : Prop :=
  ∃ off, pa.find name = .ok off ∧ pa.propertyValueBytes off = .ok value

theorem AreaInv.reads_iff {pa : PropertyAreaMap} {g : Shape} (h : AreaInv pa g)
    (name value : Bytes) : pa.Reads name value ↔ g.toMap name = some value := by
  constructor
  · rintro ⟨off, hf, hr⟩
    obtain ⟨e, hl, rfl⟩ := h.find_eq_ok_iff.mp hf
    obtain ⟨n, he, -⟩ := h.wf.lookup_eq_some_iff.mp hl
    rw [h.propertyValueBytes_eq he] at hr
    rw [Shape.toMap, hl, Option.map_some, Except.ok.inj hr]
  · intro hm
    obtain ⟨e, hl, rfl⟩ := Option.map_eq_some_iff.mp hm
    obtain ⟨n, he, -⟩ := h.wf.lookup_eq_some_iff.mp hl
    exact ⟨e.off, h.find_of_lookup hl, h.propertyValueBytes_eq he⟩

/-- What an area is after the properties of `l` have been added to a fresh one. -/
structure Filled (l : List (Bytes × Bytes)) (pa : PropertyAreaMap) : Prop where
  used_eq : pa.bytesUsed = spaceOf l
  reads : ∀ name value, pa.Reads name value ↔ (name, value) ∈ l
  updates : ∀ ups : List Update, (∀ u ∈ ups, ∃ name, pa.find name = .ok u.off) →
    (applyUpdates pa ups).bytesUsed = pa.bytesUsed

theorem Accounted.filled {l : List (Bytes × Bytes)} {pa : PropertyAreaMap} {g : Shape}
    (h : Accounted l pa g) : Filled l pa := by
  refine ⟨h.used_eq, fun name value => (h.inv.reads_iff name value).trans (h.toMap name value),
    fun ups hups => h.inv.basic.applyUpdates fun u hu => ?_⟩
  obtain ⟨name, hf⟩ := hups u hu
  obtain ⟨e, hl, ho⟩ := h.inv.find_eq_ok_iff.mp hf
  obtain ⟨n, he, -⟩ := h.inv.wf.lookup_eq_some_iff.mp hl
  obtain ⟨hmod, -, hstop⟩ := h.inv.entry_bounds he
  have hge := entryExtent_ge (joinDot (g.path n))
  have hhigh := h.inv.basic.used_high
  exact ⟨ho ▸ hmod, by omega⟩

/-- Adding the properties to a fresh area. -/
theorem addAll_newRw {l : List (Bytes × Bytes)} (hname : ∀ p ∈ l, ProperName p.1)
    (hv : ∀ p ∈ l, 0 ∉ p.2) (hd : (l.map Prod.fst).Nodup) :
    (succeeded (addAll l newRw) = true ↔ spaceOf l ≤ 130944) ∧
    (succeeded (addAll l newRw) = true → Filled l (finalState (addAll l newRw))) := by
  rcases accounted_newRw.addAll hname hv hd with ⟨hfit, pa', g', hr, hacc⟩ | ⟨hfull, e, pa', hr⟩
  · rw [hr]
    exact ⟨⟨fun _ => hfit, fun _ => rfl⟩, fun _ => hacc.filled⟩
  · rw [hr]
    rw [List.nil_append] at hfull
    exact ⟨⟨fun hs => (by cases hs), fun hle => by omega⟩, fun hs => (by cases hs)⟩

/-- **The order of adds does not matter.** Two orders of the same properties succeed together; when
they do, both areas use exactly `spaceOf l`, read the same values, and keep their `bytes_used` under
any in-place updates of the entries found in them. -/
theorem addAll_perm {l l' : List (Bytes × Bytes)} (hperm : l.Perm l')
    (hname : ∀ p ∈ l, ProperName p.1) (hv : ∀ p ∈ l, 0 ∉ p.2) (hd : (l.map Prod.fst).Nodup) :
    (succeeded (addAll l newRw) = true ↔ succeeded (addAll l' newRw) = true) ∧
    (succeeded (addAll l newRw) = true → Filled l (finalState (addAll l newRw)) ∧
      Filled l (finalState (addAll l' newRw))) := by
  obtain ⟨hiff, hfill⟩ := addAll_newRw hname hv hd
  obtain ⟨hiff', hfill'⟩ := addAll_newRw (fun p hp => hname p (hperm.mem_iff.mpr hp))
    (fun p hp => hv p (hperm.mem_iff.mpr hp)) ((hperm.map Prod.fst).nodup_iff.mp hd)
  have hsame : succeeded (addAll l newRw) = true ↔ succeeded (addAll l' newRw) = true := by
    rw [hiff, hiff', spaceOf_perm hperm]
  refine ⟨hsame, fun hs => ⟨hfill hs, ?_⟩⟩
  obtain ⟨h1, h2, h3⟩ := hfill' (hsame.mp hs)
  exact ⟨h1.trans (spaceOf_perm hperm).symm, fun name value =>
    (h2 name value).trans hperm.mem_iff.symm, h3⟩

/-- Two properties that share a node, in both orders. -/
theorem addAll_perm_pair :
    Filled [(ascii "a.b", ascii "1"), (ascii "a", ascii "2")]
      (finalState (addAll [(ascii "a", ascii "2"), (ascii "a.b", ascii "1")] newRw)) := by
  refine ((addAll_perm (List.Perm.swap _ _ []) ?_ ?_ ?_).2 ?_).2
  · decide
  · decide
  · decide
  · decide +kernel

/-! ### Retrying a failed add -/

/-- The segments of a name whose nodes `find` does not reach. -/
def PropertyAreaMap.missingSegments (pa : PropertyAreaMap) : List Bytes → ℕ → List Bytes
  | [], _ => []
  | seg :: rest, current =>
    match pa.findLoop seg [seg] current with
    | .ok next => missingSegments pa rest next
    | .error _ => seg :: rest

/-- The area after `n` more attempts at the same `add`. -/
def retryAdd (name value : Bytes) (n : ℕ) (pa : PropertyAreaMap) : PropertyAreaMap :=
  (fun pa => finalState (PropertyAreaMap.add name value pa))^[n] pa

/-- An `add` that failed on `pa` and left `pa'` can be retried at no cost: the retries keep
`bytes_used` and every other `add` that would succeed, and the failed `add` itself has taken no more
than nodes of the name. -/
structure RetrySafe (name value : Bytes) (pa pa' : PropertyAreaMap) : Prop where
  used_eq : ∀ n, (retryAdd name value n pa').bytesUsed = pa'.bytesUsed
  others : ∀ n name' value', succeeded (PropertyAreaMap.add name' value' pa') = true →
    succeeded (PropertyAreaMap.add name' value' (retryAdd name value n pa')) = true
  consumed : pa'.bytesUsed ≤
    pa.bytesUsed + nodesExtent (pa.missingSegments (splitDot name) 0)

section Retry

variable {pa pa' : PropertyAreaMap} {g g' : Shape} {name value : Bytes} {e : Error}

theorem AreaInv.missingSegments_eq (h : AreaInv pa g) {n : ℕ} (hn : g.IsNode n)
    (segs : List Bytes) : pa.missingSegments segs n = g.missing n segs := by
  induction segs generalizing n with
  | nil => rfl
  | cons seg segs ih =>
    have hwalk : g.walk n [seg] = (g.kids n).find? cmpPropName seg := by
      rw [Shape.walk]
      cases (g.kids n).find? cmpPropName seg <;> rfl
    rw [missingSegments, Shape.missing, h.findLoop_eq seg [seg] hn]
    cases hd : g.descend seg [seg] n with
    | ok k =>
      have hw := hwalk.symm.trans (h.wf.descend_eq_ok_iff.mp hd)
      rw [hw]
      exact ih ((h.wf.find_kid_iff hn).mp hw).1
    | error e => rw [hwalk.symm.trans (h.wf.descend_error hd).1]

/-- A retry that finds the same node missing, or the same entry unbound, fails at the same place. -/
theorem FullCause.retry (hc : FullCause pa pa' g g' name value e) (hinv : AreaInv pa' g')
    (hname : ProperName name) (hv : 0 ∉ value) (hl : g'.lookup name = none)
    (hlong : ¬ (propValueMax ≤ value.length ∧ pa'.bytesUsed = pa.bytesUsed +
      nodesExtent (g.missing 0 (splitDot name)) + entryExtent name)) :
    finalState (PropertyAreaMap.add name value pa') = pa' := by
  -- what stopped the first attempt stops the second before it allocates anything
  have hstop : (∃ seg rest, g'.missing 0 (splitDot name) = seg :: rest ∧
      130944 < pa'.bytesUsed + nodeExtent seg) ∨ (g'.missing 0 (splitDot name) = [] ∧
      130944 < pa'.bytesUsed + entryExtent name) := by
    cases hc with
    | node _ hm' _ he => exact .inl ⟨_, _, hm', he.full⟩
    | entry hm' _ he => exact .inr ⟨hm', he.full⟩
    | long hlen _ hused => exact absurd ⟨hlen, hused⟩ hlong
  have hnodes : ∀ seg rest, nodesExtent (seg :: rest) = nodeExtent seg + nodesExtent rest :=
    fun _ _ => rfl
  have hspec := hinv.add_spec name hv
  generalize PropertyAreaMap.add name value pa' = res at hspec ⊢
  cases hspec with
  | refused hn => exact absurd hname hn
  | kept _ hl' => rw [hl] at hl'; cases hl'
  | @bound pa'' _ _ _ _ hinv' _ _ _ hused =>
    have hhigh := hinv'.basic.used_high
    rw [boundExtent] at hused
    rcases hstop with ⟨seg, rest, hm, hlt⟩ | ⟨hm, hlt⟩
    · rw [hm, hnodes] at hused
      omega
    · omega
  | @full _ pa'' _ _ hc' hinv' =>
    have hhigh := hinv'.basic.used_high
    cases hc' with
    | @node done _ _ hm' _ hused' _ hsame =>
      rcases hstop with ⟨seg, rest, hm, hlt⟩ | ⟨hm, hlt⟩
      · cases done with
        | nil => exact hsame rfl
        | cons s done =>
          obtain ⟨rfl, -⟩ := List.cons.inj (hm.symm.trans hm')
          rw [hnodes] at hused'
          omega
      · rw [hm] at hm'
        simp at hm'
    | entry _ hused' _ hsame =>
      rcases hstop with ⟨seg, rest, hm, hlt⟩ | ⟨hm, hlt⟩
      · rw [hm, hnodes] at hused'
        omega
      · exact hsame hm
    | long _ _ hused' _ =>
      rcases hstop with ⟨seg, rest, hm, hlt⟩ | ⟨hm, hlt⟩
      · rw [hm, hnodes] at hused'
        omega
      · omega

/-- **When a failed add can be retried at no cost.** On every area a run reaches, an `add` that
reports a full area can be retried exactly when it did not get as far as an out-of-line value: the
value is short, or the missing nodes and the entry alone exceed the area. -/
theorem retrySafe_iff {M : Bytes → Option Bytes} {seen : List (Bytes × ℕ)} (h : AreaRun pa M seen)
    (hname : ProperName name) (hv : 0 ∉ value) {msg : String}
    (hfail : PropertyAreaMap.add name value pa = .error (.areaFull msg) pa') :
    RetrySafe name value pa pa' ↔ value.length < propValueMax ∨
      130944 < pa.bytesUsed + nodesExtent (pa.missingSegments (splitDot name) 0) +
        entryExtent name := by
  obtain ⟨g, hinv, -, -⟩ := h.exists_shape
  have hmiss := hinv.missingSegments_eq (.inl rfl) (splitDot name)
  have hspec := hinv.add_spec name hv
  rw [hfail] at hspec
  cases hspec with
  | refused hn => exact absurd hname hn
  | @full _ _ g' _ hc hinv' _ _ hlookup hl =>
    have hhigh := hinv'.basic.used_high
    constructor
    · intro hs
      have hcons := hs.consumed
      rw [hmiss] at hcons ⊢
      cases hc with
      | @node done rest seg hm _ hused he =>
        have hfull := he.full
        rw [hm, nodesExtent, List.map_append, List.sum_append, List.map_cons, List.sum_cons]
        rw [hused, nodesExtent] at hfull
        exact .inr (by omega)
      | entry _ hused he => exact .inr (hused ▸ he.full)
      | long _ _ hused =>
        have := entryExtent_ge name
        omega
    · intro hcond
      rw [hmiss] at hcond
      have hstay := hc.retry hinv' hname hv (by rw [hlookup]; exact hl) (by
        rintro ⟨hlen, hused⟩
        omega)
      have hiter : ∀ n, retryAdd name value n pa' = pa' := fun n =>
        Function.iterate_fixed hstay n
      refine ⟨fun n => by rw [hiter], fun n _ _ hs => by rw [hiter]; exact hs, ?_⟩
      rw [hmiss]
      cases hc with
      | node hm _ hused =>
        rw [hm, nodesExtent, List.map_append, List.sum_append]
        rw [nodesExtent] at hused
        omega
      | entry _ hused => exact hused.le
      | long hlen _ hused => omega

/-- An entry that fits and a long value that does not: the entry is allocated and left behind. -/
theorem AreaInv.add_stranded (h : AreaInv pa g) (hname : ProperName name) (hv : 0 ∉ value)
    (hlen : propValueMax ≤ value.length) (hl : g.lookup name = none) {used : ℕ}
    (hused : used = pa.bytesUsed + nodesExtent (g.missing 0 (splitDot name)) + entryExtent name)
    (hfit : used ≤ 130944) (hfull : 130944 < used + longExtent value)
    (h32 : used + longExtent value < 2 ^ 32) :
    ∃ msg pa' g', PropertyAreaMap.add name value pa = .error (.areaFull msg) pa' ∧
      AreaInv pa' g' ∧ pa'.bytesUsed = used ∧ g'.missing 0 (splitDot name) = [] ∧
      g'.lookup name = none := by
  have hnodes : ∀ done seg rest, nodesExtent (done ++ seg :: rest) =
      nodesExtent done + nodeExtent seg + nodesExtent rest := by
    intro done seg rest
    simp only [nodesExtent, List.map_append, List.map_cons, List.sum_append, List.sum_cons]
    omega
  have hspec := h.add_spec name hv
  generalize PropertyAreaMap.add name value pa = res at hspec ⊢
  cases hspec with
  | refused hn => exact absurd hname hn
  | kept _ hl' => rw [hl] at hl'; cases hl'
  | bound _ _ hinv' _ _ _ hused' =>
    have hhigh := hinv'.basic.used_high
    rw [boundExtent, if_pos hlen] at hused'
    omega
  | @full e pa' g' _ hc hinv' _ _ hlookup _ =>
    cases hc with
    | node hm _ hused' he =>
      have hn := he.full
      rw [hm, hnodes] at hused
      omega
    | entry _ hused' he =>
      have hn := he.full
      omega
    | long _ hm' hused' he =>
      have hpa : pa'.bytesUsed = used := by omega
      obtain ⟨msg, rfl⟩ := he.areaFull (hpa ▸ h32)
      exact ⟨msg, pa', g', rfl, hinv', hpa, hm', by rw [hlookup]; exact hl⟩

/-- A value longer than an area. -/
def oversized : Bytes := List.replicate 131000 97

theorem length_oversized : oversized.length = 131000 := List.length_replicate

theorem nul_notMem_oversized : 0 ∉ oversized := fun h =>
  absurd (List.eq_of_mem_replicate h) (by decide)

theorem longExtent_oversized : longExtent oversized = 131004 := by
  rw [longExtent, length_oversized]
  decide

private theorem add_oversized (h : AreaInv pa g) (hl : g.lookup (ascii "a") = none)
    (hused : pa.bytesUsed + nodesExtent (g.missing 0 (splitDot (ascii "a"))) ≤ 130000) :
    ∃ msg pa' g', PropertyAreaMap.add (ascii "a") oversized pa = .error (.areaFull msg) pa' ∧
      AreaInv pa' g' ∧ pa'.bytesUsed = pa.bytesUsed +
        nodesExtent (g.missing 0 (splitDot (ascii "a"))) + 100 ∧
      g'.missing 0 (splitDot (ascii "a")) = [] ∧ g'.lookup (ascii "a") = none := by
  have hext := longExtent_oversized
  have hlen : propValueMax ≤ oversized.length := by
    rw [length_oversized]
    decide
  exact h.add_stranded (by decide) nul_notMem_oversized hlen hl rfl (by omega) (by omega) (by omega)

/-- An oversized value under the name `a`: the first attempt leaves the node and an entry behind, the
next one another entry. -/
theorem add_strands_entry : ∃ msg pa,
    PropertyAreaMap.add (ascii "a") oversized newRw = .error (.areaFull msg) pa ∧
    newRw.bytesUsed = 112 ∧ pa.bytesUsed = 236 ∧
    (retryAdd (ascii "a") oversized 1 pa).bytesUsed = 336 ∧
    ¬ RetrySafe (ascii "a") oversized newRw pa := by
  have hused : newRw.bytesUsed = 112 := by decide +kernel
  have hnode : nodesExtent (Shape.empty.missing 0 (splitDot (ascii "a"))) = 24 := by decide
  obtain ⟨msg, pa, g, hr, hinv, hpa, hm, hl⟩ := add_oversized areaInv_newRw rfl (by omega)
  have hnone : nodesExtent (g.missing 0 (splitDot (ascii "a"))) = 0 := by
    rw [hm]
    rfl
  obtain ⟨msg', pa', g', hr', -, hpa', -, -⟩ := add_oversized hinv hl (by omega)
  have hretry : (retryAdd (ascii "a") oversized 1 pa).bytesUsed = 336 := by
    rw [retryAdd, Function.iterate_one, hr', finalState]
    omega
  refine ⟨msg, pa, hr, hused, by omega, hretry, fun hs => ?_⟩
  have := hs.used_eq 1
  omega

/-- The same attempt, by the criterion. -/
theorem retrySafe_iff_oversized : ∃ msg pa,
    PropertyAreaMap.add (ascii "a") oversized newRw = .error (.areaFull msg) pa ∧
    (RetrySafe (ascii "a") oversized newRw pa ↔ oversized.length < propValueMax ∨
      130944 < newRw.bytesUsed + nodesExtent (newRw.missingSegments (splitDot (ascii "a")) 0) +
        entryExtent (ascii "a")) := by
  have hused : newRw.bytesUsed = 112 := by decide +kernel
  have hnode : nodesExtent (Shape.empty.missing 0 (splitDot (ascii "a"))) = 24 := by decide
  obtain ⟨msg, pa, g, hr, -⟩ := add_oversized areaInv_newRw rfl (by omega)
  exact ⟨msg, pa, hr, retrySafe_iff .init (by decide) nul_notMem_oversized hr⟩

end Retry

end RsProperties
