import RsProperties.PropertyArea.Refinement

/-!
# The name grammar

A property name is one or more non-empty segments joined by single dots, each made of ASCII letters,
digits and `_ - @ :`. `validate_property_name` checks this with three tests on the ends of the name and a
loop that remembers whether the last character was a dot; the area checks the segments it gets from
splitting. Both agree with the grammar: the loop accepts exactly the strings whose segments after the
first are non-empty, and a name of the grammar is one `add` and `find` never refuse for its shape.
-/

namespace RsProperties

open ByteMem StateExcept PropertyAreaMap

/-! ### The grammar -/

def IsAsciiLetter (c : UInt8) : Prop := (65 ≤ c ∧ c ≤ 90) ∨ (97 ≤ c ∧ c ≤ 122)

def IsAsciiDigit (c : UInt8) : Prop := 48 ≤ c ∧ c ≤ 57

/-- The characters of a segment: letters, digits, `_`, `-`, `@` and `:`. -/
def SegmentChar (c : UInt8) : Prop :=
  IsAsciiLetter c ∨ IsAsciiDigit c ∨ c = 95 ∨ c = 45 ∨ c = 64 ∨ c = 58

/-- A segment of a name. -/
def NameSegment (seg : Bytes) : Prop := seg ≠ [] ∧ ∀ c ∈ seg, SegmentChar c

/-- The names: segments joined by single dots. -/
def NameGrammar (name : Bytes) : Prop :=
  ∃ segs, segs ≠ [] ∧ (∀ seg ∈ segs, NameSegment seg) ∧ name = joinDot segs

theorem not_segmentChar_dot : ¬ SegmentChar dot := by
  unfold SegmentChar IsAsciiLetter IsAsciiDigit
  decide

theorem not_segmentChar_nul : ¬ SegmentChar 0 := by
  unfold SegmentChar IsAsciiLetter IsAsciiDigit
  decide

/-- The validator's characters are those of the segments and the dot. -/
theorem nameByteOk_iff {c : UInt8} : nameByteOk c = true ↔ SegmentChar c ∨ c = dot := by
  simp only [nameByteOk, SegmentChar, IsAsciiLetter, IsAsciiDigit, Bool.or_eq_true, Bool.and_eq_true,
    decide_eq_true_eq, beq_iff_eq]
  tauto

theorem NameSegment.dot_notMem {seg : Bytes} (h : NameSegment seg) : dot ∉ seg := fun hm =>
  not_segmentChar_dot (h.2 dot hm)

/-- The grammar read off the segments of the name. -/
theorem nameGrammar_iff {name : Bytes} : NameGrammar name ↔ ∀ seg ∈ splitDot name, NameSegment seg := by
  constructor
  · rintro ⟨segs, hne, hsegs, rfl⟩
    rwa [splitDot_joinDot hne fun s hs => (hsegs s hs).dot_notMem]
  · intro h
    exact ⟨splitDot name, splitDot_ne_nil name, h, (joinDot_splitDot name).symm⟩

/-! ### The character loop -/

/-- The segments of a name are its characters without the dots. -/
theorem forall_mem_splitDot {name : Bytes} {p : UInt8 → Prop} :
    (∀ seg ∈ splitDot name, ∀ c ∈ seg, p c) ↔ ∀ c ∈ name, p c ∨ c = dot := by
  induction name with
  | nil => simp [splitDot]
  | cons c rest ih =>
    obtain ⟨seg, segs, hs⟩ := List.exists_cons_of_ne_nil (splitDot_ne_nil rest)
    rw [hs, List.forall_mem_cons] at ih
    rw [List.forall_mem_cons, ← ih, splitDot, hs]
    by_cases hc : c = dot
    · simp [hc]
    · rw [if_neg hc, List.forall_mem_cons, List.forall_mem_cons]
      simp only [hc, or_false]
      exact and_assoc

/-- The loop accepts a rest exactly when its characters are allowed, no dot follows a dot, and none comes
first after a remembered dot: with a last character that is no dot, no segment behind a dot is empty. -/
theorem validateNameLoop_eq_ok {name : Bytes} (prevDot : Bool) (rest : Bytes) :
    (validateNameLoop name prevDot rest = .ok () ∧ rest.getLast? ≠ some dot ∧
        (prevDot = true → rest ≠ [])) ↔
      (∀ c ∈ rest, nameByteOk c = true) ∧ (∀ seg ∈ (splitDot rest).tail, seg ≠ []) ∧
        (prevDot = true → (splitDot rest).head? ≠ some []) := by
  induction rest generalizing prevDot with
  | nil => simp [validateNameLoop, splitDot]
  | cons c rest ih =>
    obtain ⟨seg, segs, hs⟩ := List.exists_cons_of_ne_nil (splitDot_ne_nil rest)
    have ihc := ih (c == dot)
    rw [hs] at ihc
    rw [validateNameLoop, splitDot, hs]
    by_cases hok : nameByteOk c = true
    · by_cases hc : c = dot
      · subst hc
        cases prevDot with
        | true => simp [hok]
        | false =>
          have hlast : (dot :: rest).getLast? ≠ some dot ↔ rest.getLast? ≠ some dot ∧ rest ≠ [] := by
            cases rest with
            | nil => simp
            | cons d rest => simp
          have hi : (validateNameLoop name true rest = .ok () ∧ rest.getLast? ≠ some dot ∧ rest ≠ []) ↔
              (∀ c ∈ rest, nameByteOk c = true) ∧ (∀ seg ∈ segs, seg ≠ []) ∧ seg ≠ [] := by
            simpa using ihc
          rw [hlast]
          simp only [hok, Bool.not_true, Bool.false_eq_true, if_false, Bool.and_false, if_true,
            List.tail_cons, List.forall_mem_cons, beq_self_eq_true, false_implies, and_true, true_and]
          rw [hi]
          tauto
      · have hb : (c == dot) = false := by simpa using hc
        have hlast : (c :: rest).getLast? ≠ some dot ↔ rest.getLast? ≠ some dot := by
          cases rest with
          | nil => simpa using hc
          | cons d rest => simp
        have hi : (validateNameLoop name false rest = .ok () ∧ rest.getLast? ≠ some dot) ↔
            (∀ c ∈ rest, nameByteOk c = true) ∧ (∀ seg ∈ segs, seg ≠ []) := by
          simpa [hb] using ihc
        rw [hlast, if_neg hc]
        simp only [hok, hb, Bool.not_true, Bool.false_eq_true, if_false, Bool.false_and, List.tail_cons,
          List.forall_mem_cons, List.head?_cons, true_and]
        rw [← and_assoc, hi]
        simp
    · simp [hok]

/-- **The validator decides the grammar.** -/
theorem validatePropertyName_eq_ok {name : Bytes} :
    validatePropertyName name = .ok () ↔ NameGrammar name := by
  have hloop := @validateNameLoop_eq_ok name false name
  have hchars := @forall_mem_splitDot name SegmentChar
  simp only [← nameByteOk_iff] at hchars
  rw [nameGrammar_iff]
  cases name with
  | nil => simp [validatePropertyName, splitDot, NameSegment]
  | cons c rest =>
    obtain ⟨seg, segs, hs⟩ := List.exists_cons_of_ne_nil (splitDot_ne_nil (c :: rest))
    have hhead : c = dot ↔ seg = [] := by
      obtain ⟨s, ss, hr⟩ := List.exists_cons_of_ne_nil (splitDot_ne_nil rest)
      rw [splitDot, hr] at hs
      by_cases hc : c = dot
      · rw [if_pos hc] at hs
        simp [hc, (List.cons.inj hs).1.symm]
      · rw [if_neg hc] at hs
        simp [hc, (List.cons.inj hs).1.symm]
    rw [hs] at hloop hchars ⊢
    have hok : validatePropertyName (c :: rest) = .ok () ↔
        c ≠ dot ∧ validateNameLoop (c :: rest) false (c :: rest) = .ok () ∧
          (c :: rest).getLast? ≠ some dot := by
      unfold validatePropertyName
      by_cases hc : c = dot
      · simp [hc]
      · by_cases hl : (c :: rest).getLast? = some dot
        · simp [hc, hl]
        · simp only [List.isEmpty_cons, Bool.false_eq_true, if_false, List.head?_cons, Option.some.injEq,
            hc, hl, not_false_eq_true, ne_eq, true_and, and_true]
    have hl' : (validateNameLoop (c :: rest) false (c :: rest) = .ok () ∧
        (c :: rest).getLast? ≠ some dot) ↔
        (∀ d ∈ c :: rest, nameByteOk d = true) ∧ ∀ seg ∈ segs, seg ≠ [] := by
      simpa using hloop
    rw [hok, hl', ← hchars, Ne, hhead, List.forall_mem_cons, List.forall_mem_cons]
    simp only [NameSegment]
    constructor
    · rintro ⟨hne, ⟨hseg, hsegs⟩, hnes⟩
      exact ⟨⟨hne, hseg⟩, fun s hm => ⟨hnes s hm, hsegs s hm⟩⟩
    · rintro ⟨⟨hne, hseg⟩, hrest⟩
      exact ⟨hne, ⟨hseg, fun s hm => (hrest s hm).2⟩, fun s hm => (hrest s hm).1⟩

/-! ### The area and the grammar -/

theorem NameGrammar.properName {name : Bytes} (h : NameGrammar name) : ProperName name := by
  rw [nameGrammar_iff] at h
  refine ⟨fun hm => ?_, fun s hs => (h s hs).1⟩
  rcases forall_mem_splitDot.mp (fun s hs => (h s hs).2) 0 hm with h0 | h0
  · exact not_segmentChar_nul h0
  · exact absurd h0 (by decide)

/-- On a proper name `add` fails only in the allocator, whatever the value. -/
theorem AreaInv.add_error_isAlloc {pa pa' : PropertyAreaMap} {g : Shape} (h : AreaInv pa g)
    {name value : Bytes} (hp : ProperName name) {e : Error} (he : add name value pa = .error e pa') :
    e.isAlloc = true := by
  have hsegs : ∀ s ∈ splitDot name, s ≠ [] ∧ 0 ∉ s ∧ dot ∉ s := fun s hs =>
    ⟨hp.2 s hs, fun hm => hp.1 ((mem_of_mem_splitDot hs).1 0 hm), (mem_of_mem_splitDot hs).2⟩
  rw [add, bind_ok (look_ok (validateNoInteriorNul_eq_ok.mpr hp.1)),
    if_neg (fun hc => (properName_iff hp.1).mp hc hp)] at he
  obtain ⟨pa1, g1, done, left, hd, ⟨e', seg, rest, -, ha, hr⟩ | ⟨k, -, hr, hk, -⟩⟩ :=
    h.addLoop_spec (splitDot name) (.inl rfl) hsegs
  · rw [bind_error hr] at he
    cases he
    exact ha.isAlloc
  obtain ⟨node, hload, -, -⟩ := hd.inv.trieNode_eq hk
  rw [bind_ok hr, bind_ok (look_ok hload)] at he
  split_ifs at he with hprop
  · rcases newPropInfo_spec hd.inv.basic name value with
      ⟨e', ha, hn⟩ | ⟨-, e', pa2, ha, hn, -⟩ | ⟨pa2, hn, hg, -⟩
    · rw [bind_error hn] at he
      cases he
      exact ha.isAlloc
    · rw [bind_error hn] at he
      cases he
      exact ha.isAlloc
    · -- the entry is written: its link is stored at a node of the area, which cannot fail
      have hlt := hd.inv.wf.node_lt hk hd.inv.basic.used_low
      have hhigh := hd.inv.basic.used_high
      rw [bind_ok hn, storeLink_run hg.basic .prop (hd.inv.wf.node_mod hk) (by omega)] at he
      cases he
  · cases he

/-- On a proper name `find` answers or reports absence. -/
theorem AreaInv.find_of_proper {pa : PropertyAreaMap} {g : Shape} (h : AreaInv pa g) {name : Bytes}
    (hp : ProperName name) :
    (∃ off, pa.find name = .ok off) ∨ ∃ msg, pa.find name = .error (.notFound msg) := by
  cases hl : g.lookup name with
  | some e => exact .inl ⟨e.off, h.find_of_lookup hl⟩
  | none =>
    obtain ⟨e, hf, he | ⟨hs, -⟩⟩ := h.find_of_lookup_none hl
    · cases e with
      | notFound msg => exact .inr ⟨msg, hf⟩
      | _ => cases he
    · exact absurd rfl (hp.2 [] hs)

/-- **Validation is the name grammar, and the store accepts it.** The validator accepts exactly the names
of the grammar. In every state of every run of an area, `add` on such a name fails only for want of space,
whatever the value, and `find` answers or reports absence. -/
theorem validatePropertyName_agrees_with_area :
    (∀ name, validatePropertyName name = .ok () ↔ NameGrammar name) ∧
    ∀ pa M seen, AreaRun pa M seen → ∀ name, NameGrammar name →
      (∀ value e pa', add name value pa = .error e pa' →
        (∃ msg, e = .areaFull msg) ∨ ∃ msg, e = .fileSize msg) ∧
      ((∃ off, pa.find name = .ok off) ∨ ∃ msg, pa.find name = .error (.notFound msg)) := by
  refine ⟨fun name => validatePropertyName_eq_ok, fun pa M seen hrun name hname => ?_⟩
  obtain ⟨g, hinv, -, -⟩ := hrun.exists_shape
  refine ⟨fun value e pa' he => ?_, hinv.find_of_proper hname.properName⟩
  have hal := hinv.add_error_isAlloc hname.properName he
  cases e with
  | areaFull msg => exact .inl ⟨msg, rfl⟩
  | fileSize msg => exact .inr ⟨msg, rfl⟩
  | _ => cases hal

example : validatePropertyName (ascii "ro.boot_a.x-y@z:1") = .ok () := by decide +kernel

end RsProperties
