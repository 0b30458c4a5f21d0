import RsProperties.Wire

/-!
# Names and their segments

Both tries of the crate, the property area and the property-info image, cut a name at its dots. Cutting
(`splitDot`) and joining (`joinDot`) are inverse to each other on dot-free segments. A path of segments, each
followed by its dot (`dotPath`), is what stands in front of the names below a node.
-/

namespace RsProperties

open ByteMem

/-- `str::split('.')`: the segments of a name, at least one. -/
def splitDot : Bytes → List Bytes
  | [] => [[]]
  | c :: rest =>
    if c = dot then [] :: splitDot rest
    else
      match splitDot rest with
      | [] => [[c]]
      | seg :: segs => (c :: seg) :: segs

/-- The segments joined by dots. -/
def joinDot : List Bytes → Bytes
  | [] => []
  | [seg] => seg
  | seg :: seg' :: segs => seg ++ dot :: joinDot (seg' :: segs)

theorem splitDot_ne_nil (name : Bytes) : splitDot name ≠ [] := by
  cases name with
  | nil => simp [splitDot]
  | cons c rest =>
    rw [splitDot]
    split_ifs
    · simp
    · split <;> simp

/-- Joining the segments of a name gives the name back. -/
theorem joinDot_splitDot (name : Bytes) : joinDot (splitDot name) = name := by
  induction name with
  | nil => rfl
  | cons c rest ih =>
    have hne := splitDot_ne_nil rest
    rw [splitDot]
    obtain ⟨seg, segs, hs⟩ := List.exists_cons_of_ne_nil hne
    rw [hs] at ih ⊢
    split_ifs with hc
    · rw [joinDot, ih, hc, List.nil_append]
    · cases segs with
      | nil => exact congrArg (c :: ·) ih
      | cons seg' segs => exact congrArg (c :: ·) ih

theorem splitDot_of_dot_notMem {seg : Bytes} (h : dot ∉ seg) : splitDot seg = [seg] := by
  induction seg with
  | nil => rfl
  | cons c rest ih =>
    have hc : c ≠ dot := fun e => h (by simp [e])
    rw [splitDot, if_neg hc, ih fun hm => h (List.mem_cons_of_mem _ hm)]

theorem splitDot_append_dot {seg : Bytes} (h : dot ∉ seg) (rest : Bytes) :
    splitDot (seg ++ dot :: rest) = seg :: splitDot rest := by
  induction seg with
  | nil => simp [splitDot]
  | cons c seg ih =>
    have hc : c ≠ dot := fun e => h (by simp [e])
    rw [List.cons_append, splitDot, if_neg hc, ih fun hm => h (List.mem_cons_of_mem _ hm)]

/-- `find('.')`: a name has no dot, or is cut at its first one. -/
theorem findIdx?_dot (name : Bytes) :
    (name.findIdx? (· = dot) = none ∧ dot ∉ name) ∨
    ∃ seg rest, name = seg ++ dot :: rest ∧ dot ∉ seg ∧
      name.findIdx? (· = dot) = some seg.length := by
  by_cases h : dot ∈ name
  · obtain ⟨seg, rest, rfl, hseg⟩ := List.eq_append_cons_of_mem h
    refine .inr ⟨seg, rest, rfl, hseg, ?_⟩
    have hnone : seg.findIdx? (fun c => decide (c = dot)) = none :=
      List.findIdx?_eq_none_iff.mpr fun c hc => by
        simpa using fun (e : c = dot) => hseg (e ▸ hc)
    rw [List.findIdx?_append, hnone]
    simp [List.findIdx?_cons]
  · refine .inl ⟨List.findIdx?_eq_none_iff.mpr fun c hc => ?_, h⟩
    simpa using fun (e : c = dot) => h (e ▸ hc)

/-- Splitting a join of dot-free segments gives the segments back. -/
theorem splitDot_joinDot {segs : List Bytes} (hne : segs ≠ []) (h : ∀ s ∈ segs, dot ∉ s) :
    splitDot (joinDot segs) = segs := by
  induction segs with
  | nil => exact absurd rfl hne
  | cons seg segs ih =>
    have hseg : dot ∉ seg := h seg (by simp)
    cases segs with
    | nil => exact splitDot_of_dot_notMem hseg
    | cons seg' segs =>
      rw [joinDot, splitDot_append_dot hseg, ih (by simp) fun s hs => h s (by simp_all)]

theorem mem_of_mem_splitDot {name seg : Bytes} (h : seg ∈ splitDot name) :
    (∀ c ∈ seg, c ∈ name) ∧ dot ∉ seg := by
  induction name generalizing seg with
  | nil =>
    obtain rfl : seg = [] := by simpa [splitDot] using h
    simp
  | cons c rest ih =>
    rw [splitDot] at h
    obtain ⟨s, segs, hs⟩ := List.exists_cons_of_ne_nil (splitDot_ne_nil rest)
    rw [hs] at h ih
    have lift : ∀ t ∈ s :: segs, (∀ x ∈ t, x ∈ c :: rest) ∧ dot ∉ t := fun t ht =>
      ⟨fun x hx => List.mem_cons_of_mem _ ((ih ht).1 x hx), (ih ht).2⟩
    split_ifs at h with hc
    · rcases List.mem_cons.mp h with rfl | h
      · simp
      · exact lift seg h
    · rcases List.mem_cons.mp h with rfl | h
      · have hs := lift s (by simp)
        exact ⟨by simpa using fun x hx => by simpa using hs.1 x hx,
          by simpa [Ne.symm hc] using hs.2⟩
      · exact lift seg (List.mem_cons_of_mem _ h)

/-- The segments of a valid string are valid: the dots they are cut at are ASCII. -/
theorem valid_of_mem_splitDot {name : Bytes} (hv : Utf8.valid name = true) {seg : Bytes}
    (h : seg ∈ splitDot name) : Utf8.valid seg = true := by
  rw [← joinDot_splitDot name] at hv
  generalize splitDot name = segs at hv h
  induction segs with
  | nil => cases h
  | cons s segs ih =>
    cases segs with
    | nil =>
      obtain rfl : seg = s := by simpa using h
      exact hv
    | cons s' segs =>
      have hdot : dot.toNat < 0x80 := by decide
      obtain ⟨hs, hrest⟩ := (Utf8.valid_append_cons hdot).mp hv
      rcases List.mem_cons.mp h with rfl | h
      · exact hs
      · exact ih hrest h

/-! ### Dotted paths -/

/-- The string in front of what lives at a path: every segment with its dot. -/
def dotPath (path : List Bytes) : Bytes := (path.map (· ++ [dot])).flatten

@[simp]
theorem dotPath_nil : dotPath [] = [] := rfl

theorem dotPath_append (p q : List Bytes) : dotPath (p ++ q) = dotPath p ++ dotPath q := by
  simp [dotPath]

theorem dotPath_cons (seg : Bytes) (path : List Bytes) :
    dotPath (seg :: path) = seg ++ dot :: dotPath path := by
  simp [dotPath]

theorem joinDot_append {p q : List Bytes} (hq : q ≠ []) : joinDot (p ++ q) = dotPath p ++ joinDot q := by
  induction p with
  | nil => rfl
  | cons seg p ih =>
    obtain ⟨s, r, hr⟩ : ∃ s r, p ++ q = s :: r := List.exists_cons_of_ne_nil (by simp [hq])
    rw [List.cons_append, hr, joinDot, ← hr, ih, dotPath_cons]
    simp

theorem joinDot_snoc_nil {p : List Bytes} (hp : p ≠ []) : joinDot p ++ [dot] = dotPath p := by
  rw [← List.dropLast_append_getLast hp, joinDot_append (by simp), dotPath_append]
  simp [dotPath, joinDot]

/-- Two dot-free segments in front of a dot are the same. -/
theorem eq_of_append_dot {a b x y : Bytes} (ha : dot ∉ a) (hb : dot ∉ b)
    (h : a ++ dot :: x = b ++ dot :: y) : a = b ∧ x = y := by
  have hsplit := congrArg splitDot h
  rw [splitDot_append_dot ha, splitDot_append_dot hb] at hsplit
  obtain ⟨rfl, hxy⟩ := List.cons.inj hsplit
  rw [← joinDot_splitDot x, hxy, joinDot_splitDot]
  exact ⟨rfl, rfl⟩

/-- A dotted prefix of a joined name starts with its first segment, and more segments follow. -/
theorem dot_prefix_joinDot {x rest seg : Bytes} {segs : List Bytes} (hx : dot ∉ x) (hs : dot ∉ seg)
    (h : x ++ dot :: rest <+: joinDot (seg :: segs)) :
    x = seg ∧ segs ≠ [] ∧ rest <+: joinDot segs := by
  obtain ⟨t, ht⟩ := h
  cases segs with
  | nil =>
    have : dot ∈ seg := by
      rw [show seg = joinDot [seg] from rfl, ← ht]
      simp
    exact absurd this hs
  | cons s segs =>
    rw [joinDot, List.append_assoc, List.cons_append] at ht
    obtain ⟨rfl, hrest⟩ := eq_of_append_dot hx hs ht
    exact ⟨rfl, by simp, ⟨t, hrest⟩⟩

/-- A dot-free prefix of a joined name lies within its first segment. -/
theorem prefix_of_dot_notMem {x seg : Bytes} {segs : List Bytes} (hx : dot ∉ x)
    (h : x <+: joinDot (seg :: segs)) : x <+: seg := by
  cases segs with
  | nil => exact h
  | cons s segs =>
    rw [joinDot] at h
    rcases List.prefix_or_prefix_of_prefix h (List.prefix_append seg _) with hle | ⟨t, rfl⟩
    · exact hle
    · rw [List.prefix_append_right_inj] at h
      cases t with
      | nil => simp
      | cons c t =>
        have hc : c = dot := (List.cons_prefix_cons.mp h).1
        exact absurd (by simp [hc]) hx

end RsProperties
