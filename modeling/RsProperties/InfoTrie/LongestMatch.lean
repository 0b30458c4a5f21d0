import RsProperties.InfoTrie.Layout
import RsProperties.InfoTrie.Rules
import Mathlib.Data.List.MinMax

/-!
# Longest match over the rule list

The property-info lookup, stated over the rules alone. The context of a name is that of the exact rule for it,
else of the longest prefix rule, else the default. The type is inherited: it is the last non-empty one along
the levels the walk visits. `getPropertyInfoIndexes_buildTrie` shows that the parser, on the image the
serializer writes for the rules, computes exactly this and meets no corruption branch.

The proof goes through the walk on the trie. The rules the walk picks up form a chain of growing names
(`ruleChain`), so the last of them is the longest match.
-/

namespace RsProperties

open ByteMem

/-! ### The specification -/

namespace InfoTrie

open PropertyInfoEntry

/-- Drop one trailing dot. -/
def dropTrailingDot (name : Bytes) : Bytes :=
  if name.getLast? = some dot then name.dropLast else name

/-- The exact rule for a name. -/
def exactRule (rules : List PropertyInfoEntry) (name : Bytes) : Option PropertyInfoEntry :=
  rules.find? fun r => decide (r.exactMatch = true ∧ dropTrailingDot r.name.bytes = name)

/-- The rule with the longest name. -/
def longest (rules : List PropertyInfoEntry) : Option PropertyInfoEntry :=
  rules.argmax fun r => r.name.bytes.length

/-- The longest prefix rule, with or without a trailing dot, whose name is a prefix of the name. -/
def prefixRule (rules : List PropertyInfoEntry) (name : Bytes) : Option PropertyInfoEntry :=
  longest (rules.filter fun r => decide (r.exactMatch = false ∧ r.name.bytes <+: name))

/-- The context of a name: exact rule, longest prefix rule, default. -/
def ruleContext (rules : List PropertyInfoEntry) (defaultContext : Bytes) (name : Bytes) : Bytes :=
  ((exactRule rules name).or (prefixRule rules name)).elim defaultContext fun r => r.context.bytes

/-- The levels of the trie a walk along the segments visits, from a given path on, each with what
remains of the name there. -/
def visitedLevels (rules : List PropertyInfoEntry) :
    List Bytes → List Bytes → List (List Bytes × Bytes)
  | _, [] => []
  | path, seg :: segs =>
    (path, joinDot (seg :: segs)) ::
      if segs ≠ [] ∧ Visited rules (path ++ [seg]) then visitedLevels rules (path ++ [seg]) segs
      else []

/-- The longest rule without a trailing dot that lives at a level and matches what remains. -/
def plainRule (rules : List PropertyInfoEntry) (path : List Bytes) (remaining : Bytes) :
    Option PropertyInfoEntry :=
  longest ((rulesAt rules .plain path).filter fun r => decide (r.lastName <+: remaining))

/-- The rules of a level that count: its trailing-dot rule, then its longest matching plain rule. -/
def levelRules (rules : List PropertyInfoEntry) (l : List Bytes × Bytes) : List PropertyInfoEntry :=
  (dotRule rules l.1).toList ++ (plainRule rules l.1 l.2).toList

/-- The prefix rules along the walk. -/
def prefixChain (rules : List PropertyInfoEntry) (path segs : List Bytes) :
    List PropertyInfoEntry :=
  (visitedLevels rules path segs).flatMap (levelRules rules)

/-- The rules that count for a name, in the order of the walk, the exact rule last. -/
def ruleChain (rules : List PropertyInfoEntry) (name : Bytes) : List PropertyInfoEntry :=
  prefixChain rules [] (splitDot name) ++ (exactRule rules name).toList

/-- The type of a name: the last non-empty one along the chain, starting from the default. -/
def ruleType (rules : List PropertyInfoEntry) (defaultType : Bytes) (name : Bytes) : Bytes :=
  (ruleChain rules name).foldl
    (fun found r => if r.typeStr.bytes = [] then found else r.typeStr.bytes) defaultType

/-! ### The names of the rules -/

section Names

variable {rule : PropertyInfoEntry}

/-- The name of a rule is its segments joined, with its trailing dot. -/
theorem name_eq (hne : rule.parts ≠ []) :
    rule.name.bytes = joinDot rule.parts ++ if rule.endsWithDot then [dot] else [] := by
  have hjoin := joinDot_splitDot rule.name.bytes
  unfold PropertyInfoEntry.parts PropertyInfoEntry.endsWithDot nameParts at *
  dsimp only at hne ⊢
  by_cases hl : (splitDot rule.name.bytes).getLast? = some []
  · rw [if_pos hl] at hne ⊢
    have hsplit := List.dropLast_append_getLast? [] hl
    rw [← hsplit, joinDot_append (by simp)] at hjoin
    rw [if_pos rfl, joinDot_snoc_nil hne]
    simpa [joinDot] using hjoin.symm
  · rw [if_neg hl, if_neg (by simp)]
    simpa using hjoin.symm

theorem parts_eq (hne : rule.parts ≠ []) : rule.parts = rule.parts.dropLast ++ [rule.lastName] := by
  unfold PropertyInfoEntry.lastName
  rw [List.getLast?_eq_some_getLast hne]
  exact (List.dropLast_append_getLast hne).symm

theorem name_plain (hne : rule.parts ≠ []) (hk : rule.kind = .plain) :
    rule.name.bytes = dotPath rule.levelPath ++ rule.lastName := by
  have hd : rule.endsWithDot = false := by
    unfold PropertyInfoEntry.kind at hk
    split_ifs at hk with h1 h2
    simpa using h2
  rw [name_eq hne, hd, if_neg (by decide), List.append_nil, PropertyInfoEntry.levelPath, hk,
    if_neg (by decide)]
  conv_lhs => rw [parts_eq hne]
  rw [joinDot_append (by simp)]
  rfl

theorem name_dotted (hne : rule.parts ≠ []) (hk : rule.kind = .dotted) :
    rule.name.bytes = dotPath rule.levelPath := by
  have hd : rule.endsWithDot = true := by
    unfold PropertyInfoEntry.kind at hk
    split_ifs at hk with h1 h2
    exact h2
  rw [name_eq hne, hd, if_pos rfl, PropertyInfoEntry.levelPath, hk, if_pos rfl,
    joinDot_snoc_nil hne]

theorem exactMatch_eq_false_iff : rule.exactMatch = false ↔ rule.kind ≠ .exactMatch := by
  unfold PropertyInfoEntry.kind
  cases rule.exactMatch <;> cases rule.endsWithDot <;> simp

/-- Without its trailing dot, the name of a rule is its segments joined. -/
theorem dropTrailingDot_name (hok : RuleOk rule) :
    dropTrailingDot rule.name.bytes = joinDot rule.parts := by
  rw [name_eq hok.ne_nil]
  cases hd : rule.endsWithDot with
  | true => simp [dropTrailingDot]
  | false =>
    -- the last segment is not empty and has no dot
    have hlast : rule.lastName ∈ rule.parts := by
      rw [parts_eq hok.ne_nil]
      simp
    have hne := (hok.parts _ hlast).ne_nil
    have hnodot : dot ∉ rule.lastName := (mem_of_mem_splitDot (mem_parts hlast)).2
    have hj : (joinDot rule.parts).getLast? ≠ some dot := by
      rw [parts_eq hok.ne_nil, joinDot_append (by simp)]
      intro h
      rw [show joinDot [rule.lastName] = rule.lastName from rfl,
        List.getLast?_append_of_ne_nil _ hne] at h
      exact hnodot (List.mem_of_getLast? h)
    simp [dropTrailingDot, hj]

theorem dot_notMem_lastName (hok : RuleOk rule) : dot ∉ rule.lastName := by
  have hlast : rule.lastName ∈ rule.parts := by
    rw [parts_eq hok.ne_nil]
    simp
  exact (mem_of_mem_splitDot (mem_parts hlast)).2

theorem dot_notMem_levelPath {p : Bytes} (hp : p ∈ rule.levelPath) : dot ∉ p := by
  unfold PropertyInfoEntry.levelPath at hp
  split_ifs at hp
  · exact (mem_of_mem_splitDot (mem_parts hp)).2
  · exact (mem_of_mem_splitDot (mem_parts (List.dropLast_subset _ hp))).2

end Names

/-! ### The chain of prefix rules -/

section Chain

variable {rules : List PropertyInfoEntry}

/-- The kind and the segments of a rule name it. -/
theorem eq_of_slot (hd : (rules.map fun r => (r.kind, r.parts)).Nodup) {r r' : PropertyInfoEntry}
    (hr : r ∈ rules) (hr' : r' ∈ rules) (hk : r.kind = r'.kind) (hp : r.parts = r'.parts) :
    r = r' :=
  List.inj_on_of_nodup_map hd hr hr' (by rw [hk, hp])

theorem mem_rulesAt {kind : RuleKind} {path : List Bytes} {r : PropertyInfoEntry} :
    r ∈ rulesAt rules kind path ↔ r ∈ rules ∧ r.kind = kind ∧ r.levelPath = path := by
  simp [rulesAt]

theorem dotRule_eq_some {path : List Bytes} {r : PropertyInfoEntry} (h : dotRule rules path = some r) :
    r ∈ rules ∧ r.kind = .dotted ∧ r.levelPath = path :=
  mem_rulesAt.mp (List.mem_of_head? h)

theorem plainRule_eq_some {path : List Bytes} {remaining : Bytes} {r : PropertyInfoEntry}
    (h : plainRule rules path remaining = some r) :
    r ∈ rules ∧ r.kind = .plain ∧ r.levelPath = path ∧ r.lastName <+: remaining := by
  have hm := List.argmax_mem h
  rw [List.mem_filter, mem_rulesAt] at hm
  exact ⟨hm.1.1, hm.1.2.1, hm.1.2.2, by simpa using hm.2⟩

/-- The rules of a level are rules of the list that match the name, and their names reach behind the
level's path and not past the next segment. -/
theorem mem_levelRules (hok : ∀ r ∈ rules, RuleOk r) {path : List Bytes} {seg : Bytes}
    {segs : List Bytes} {r : PropertyInfoEntry}
    (h : r ∈ levelRules rules (path, joinDot (seg :: segs))) :
    r ∈ rules ∧ r.exactMatch = false ∧ r.name.bytes <+: dotPath path ++ joinDot (seg :: segs) ∧
      (dotPath path).length ≤ r.name.bytes.length ∧
      r.name.bytes.length ≤ (dotPath path).length + seg.length := by
  rcases List.mem_append.mp h with h | h
  · obtain ⟨hr, hk, hp⟩ : r ∈ rules ∧ r.kind = .dotted ∧ r.levelPath = path :=
      dotRule_eq_some (Option.mem_toList.mp h)
    have hname := name_dotted (hok r hr).ne_nil hk
    rw [hp] at hname
    refine ⟨hr, exactMatch_eq_false_iff.mpr (by simp [hk]), ?_, ?_, ?_⟩
    · rw [hname]
      exact List.prefix_append _ _
    · rw [hname]
    · rw [hname]
      omega
  · obtain ⟨hr, hk, hp, hm⟩ : r ∈ rules ∧ r.kind = .plain ∧ r.levelPath = path ∧
        r.lastName <+: joinDot (seg :: segs) := plainRule_eq_some (Option.mem_toList.mp h)
    have hname := name_plain (hok r hr).ne_nil hk
    have hseg := (prefix_of_dot_notMem (dot_notMem_lastName (hok r hr)) hm).length_le
    rw [hp] at hname
    refine ⟨hr, exactMatch_eq_false_iff.mpr (by simp [hk]), ?_, ?_, ?_⟩
    · rw [hname, List.prefix_append_right_inj]
      exact hm
    · rw [hname, List.length_append]
      omega
    · rw [hname, List.length_append]
      omega

theorem mem_prefixChain (hok : ∀ r ∈ rules, RuleOk r) {path segs : List Bytes}
    {r : PropertyInfoEntry} (h : r ∈ prefixChain rules path segs) :
    r ∈ rules ∧ r.exactMatch = false ∧ r.name.bytes <+: dotPath path ++ joinDot segs ∧
      (dotPath path).length ≤ r.name.bytes.length := by
  induction segs generalizing path with
  | nil => cases h
  | cons seg segs ih =>
    rw [prefixChain, visitedLevels, List.flatMap_cons, List.mem_append] at h
    rcases h with h | h
    · obtain ⟨hr, he, hp, hl, -⟩ := mem_levelRules hok h
      exact ⟨hr, he, hp, hl⟩
    · split_ifs at h with hv
      · obtain ⟨hr, he, hp, hl⟩ := ih h
        obtain ⟨s, r', hs⟩ := List.exists_cons_of_ne_nil hv.1
        have hpath : dotPath (path ++ [seg]) = dotPath path ++ (seg ++ [dot]) := by
          rw [dotPath_append, dotPath_cons, dotPath_nil]
        refine ⟨hr, he, ?_, ?_⟩
        · rw [hs, joinDot, ← hs]
          simpa [hpath] using hp
        · rw [hpath, List.length_append] at hl
          omega
      · cases h

/-- Along the chain the names grow. -/
theorem pairwise_prefixChain (hok : ∀ r ∈ rules, RuleOk r) (path segs : List Bytes) :
    (prefixChain rules path segs).Pairwise fun a b => a.name.bytes.length ≤ b.name.bytes.length := by
  induction segs generalizing path with
  | nil => exact List.Pairwise.nil
  | cons seg segs ih =>
    rw [prefixChain, visitedLevels, List.flatMap_cons, List.pairwise_append]
    refine ⟨?_, ?_, fun a ha b hb => ?_⟩
    · refine List.pairwise_append.mpr ⟨?_, ?_, fun a ha b hb => ?_⟩
      · cases dotRule rules path <;> simp
      · cases plainRule rules path (joinDot (seg :: segs)) <;> simp
      · obtain ⟨hr, hk, hp⟩ := dotRule_eq_some (Option.mem_toList.mp ha)
        obtain ⟨hr', hk', hp', -⟩ := plainRule_eq_some (Option.mem_toList.mp hb)
        rw [name_dotted (hok a hr).ne_nil hk, name_plain (hok b hr').ne_nil hk', hp, hp',
          List.length_append]
        omega
    · split_ifs with hv
      · exact ih _
      · exact List.Pairwise.nil
    · split_ifs at hb with hv
      · obtain ⟨-, -, -, -, hle⟩ := mem_levelRules hok ha
        obtain ⟨-, -, -, hge⟩ := mem_prefixChain hok hb
        rw [dotPath_append, List.length_append, dotPath_cons, List.length_append] at hge
        omega
      · cases hb

/-- A matching rule that lives at or below the path is no longer than some rule of the chain. -/
theorem exists_prefixChain_ge (hok : ∀ r ∈ rules, RuleOk r) {path segs : List Bytes}
    (hne : segs ≠ []) (hdot : ∀ s ∈ segs, dot ∉ s) {r : PropertyInfoEntry} (hr : r ∈ rules)
    (he : r.exactMatch = false) (hm : r.name.bytes <+: dotPath path ++ joinDot segs)
    (hp : path <+: r.levelPath) :
    ∃ r' ∈ prefixChain rules path segs, r.name.bytes.length ≤ r'.name.bytes.length := by
  have hnil := (hok r hr).ne_nil
  induction segs generalizing path with
  | nil => exact absurd rfl hne
  | cons seg segs ih =>
    rw [prefixChain, visitedLevels, List.flatMap_cons]
    obtain ⟨q, hq⟩ := hp
    cases q with
    | nil =>
      -- the rule lives at this level
      rw [List.append_nil] at hq
      cases hk : r.kind with
      | exactMatch => exact absurd hk (exactMatch_eq_false_iff.mp he)
      | dotted =>
        have hmem : r ∈ rulesAt rules .dotted path := mem_rulesAt.mpr ⟨hr, hk, hq.symm⟩
        obtain ⟨r0, rest, hat⟩ := List.exists_cons_of_ne_nil (List.ne_nil_of_mem hmem)
        have hdr : dotRule rules path = some r0 := by rw [dotRule, hat]; rfl
        obtain ⟨hr0, hk0, hp0⟩ := dotRule_eq_some hdr
        refine ⟨r0, List.mem_append_left _ (List.mem_append_left _ (by simp [hdr])), ?_⟩
        rw [name_dotted hnil hk, name_dotted (hok r0 hr0).ne_nil hk0, hp0, hq]
      | plain =>
        have hname := name_plain hnil hk
        rw [← hq] at hname
        rw [hname, List.prefix_append_right_inj] at hm
        have hmem : r ∈ (rulesAt rules .plain path).filter
            fun r => decide (r.lastName <+: joinDot (seg :: segs)) :=
          List.mem_filter.mpr ⟨mem_rulesAt.mpr ⟨hr, hk, hq.symm⟩, by simpa using hm⟩
        cases hpl : plainRule rules path (joinDot (seg :: segs)) with
        | none =>
          rw [plainRule, longest, List.argmax_eq_none] at hpl
          rw [hpl] at hmem
          cases hmem
        | some r0 =>
          refine ⟨r0, List.mem_append_left _ (List.mem_append_right _ (by simp [hpl])), ?_⟩
          exact List.le_of_mem_argmax (f := fun r : PropertyInfoEntry => r.name.bytes.length) hmem hpl
    | cons x q =>
      -- the rule lives below: its next segment is the next segment of the name
      have hmem : x ∈ r.levelPath := by
        rw [← hq]
        simp
      have hx : dot ∉ x := dot_notMem_levelPath hmem
      have hpre : dotPath r.levelPath <+: r.name.bytes := by
        cases hk : r.kind with
        | exactMatch => exact absurd hk (exactMatch_eq_false_iff.mp he)
        | dotted => rw [name_dotted hnil hk]
        | plain =>
          rw [name_plain hnil hk]
          exact List.prefix_append _ _
      have hpre' := hpre.trans hm
      rw [← hq, dotPath_append, List.prefix_append_right_inj, dotPath_cons] at hpre'
      obtain ⟨rfl, hsegs, -⟩ := dot_prefix_joinDot hx (hdot seg (by simp)) hpre'
      have hp' : path ++ [x] <+: r.levelPath := ⟨q, by rw [← hq]; simp⟩
      rw [if_pos ⟨hsegs, .inr ⟨r, hr, hp'⟩⟩]
      obtain ⟨s, rest, hs⟩ := List.exists_cons_of_ne_nil hsegs
      have hm' : r.name.bytes <+: dotPath (path ++ [x]) ++ joinDot segs := by
        rw [hs, joinDot, ← hs] at hm
        rw [dotPath_append, dotPath_cons]
        simpa using hm
      obtain ⟨r', hr', hle⟩ := ih hsegs (fun s hs => hdot s (by simp [hs])) hm' hp'
      exact ⟨r', List.mem_append_right _ hr', hle⟩

/-- Two prefix rules of the same name are the same rule. -/
theorem eq_of_name (hd : (rules.map fun r => (r.kind, r.parts)).Nodup) {r r' : PropertyInfoEntry}
    (hr : r ∈ rules) (hr' : r' ∈ rules) (he : r.exactMatch = false) (he' : r'.exactMatch = false)
    (h : r.name.bytes = r'.name.bytes) : r = r' := by
  refine eq_of_slot hd hr hr' ?_ ?_
  · have hdots : r.endsWithDot = r'.endsWithDot := by
      rw [PropertyInfoEntry.endsWithDot, PropertyInfoEntry.endsWithDot, h]
    rw [PropertyInfoEntry.kind, PropertyInfoEntry.kind, he, he', hdots]
  · rw [PropertyInfoEntry.parts, PropertyInfoEntry.parts, h]

/-- **The last rule of the chain is the longest match.** -/
theorem getLast?_prefixChain (hok : ∀ r ∈ rules, RuleOk r)
    (hd : (rules.map fun r => (r.kind, r.parts)).Nodup) (name : Bytes) :
    (prefixChain rules [] (splitDot name)).getLast? = prefixRule rules name := by
  have hdot : ∀ s ∈ splitDot name, dot ∉ s := fun s hs => (mem_of_mem_splitDot hs).2
  have hjoin : dotPath [] ++ joinDot (splitDot name) = name := joinDot_splitDot name
  have hge : ∀ r ∈ rules.filter fun r => decide (r.exactMatch = false ∧ r.name.bytes <+: name),
      ∃ r' ∈ prefixChain rules [] (splitDot name),
        r.name.bytes.length ≤ r'.name.bytes.length := by
    intro r hr
    obtain ⟨hr, he, hm⟩ : r ∈ rules ∧ r.exactMatch = false ∧ r.name.bytes <+: name := by
      simpa using hr
    exact exists_prefixChain_ge hok (splitDot_ne_nil name) hdot hr he (by rwa [hjoin])
      List.nil_prefix
  unfold prefixRule longest
  cases hlast : (prefixChain rules [] (splitDot name)).getLast? with
  | none =>
    rw [List.getLast?_eq_none_iff] at hlast
    refine (List.argmax_eq_none.mpr (List.eq_nil_iff_forall_not_mem.mpr fun r hr => ?_)).symm
    obtain ⟨r', hr', -⟩ := hge r hr
    rw [hlast] at hr'
    cases hr'
  | some x =>
    have hx := List.mem_of_getLast? hlast
    obtain ⟨hxr, hxe, hxm, -⟩ := mem_prefixChain hok hx
    rw [hjoin] at hxm
    have hxf : x ∈ rules.filter fun r => decide (r.exactMatch = false ∧ r.name.bytes <+: name) := by
      simpa using ⟨hxr, hxe, hxm⟩
    cases hmax : (rules.filter fun r => decide (r.exactMatch = false ∧ r.name.bytes <+: name)).argmax
        fun r => r.name.bytes.length with
    | none =>
      rw [List.argmax_eq_none.mp hmax] at hxf
      cases hxf
    | some y =>
      have hyf := List.argmax_mem hmax
      obtain ⟨hyr, hye, hym⟩ : y ∈ rules ∧ y.exactMatch = false ∧ y.name.bytes <+: name := by
        simpa using hyf
      obtain ⟨r', hr', hle⟩ := hge y hyf
      -- the last rule is at least as long as every rule of the chain
      have hlast_ge : r'.name.bytes.length ≤ x.name.bytes.length := by
        have hsplit := List.dropLast_append_getLast? x hlast
        have hpw := pairwise_prefixChain hok [] (splitDot name)
        rw [← hsplit] at hpw hr'
        rcases List.mem_append.mp hr' with hr' | hr'
        · exact (List.pairwise_append.mp hpw).2.2 r' hr' x (by simp)
        · rw [List.mem_singleton.mp hr']
      have hxy : x.name.bytes.length ≤ y.name.bytes.length :=
        List.le_of_mem_argmax (f := fun r : PropertyInfoEntry => r.name.bytes.length) hxf hmax
      have hnames : x.name.bytes = y.name.bytes :=
        List.IsPrefix.eq_of_length (List.prefix_of_prefix_length_le hxm hym hxy) (by omega)
      rw [eq_of_name hd hxr hyr hxe hye hnames]

end Chain

/-! ### The walk picks up the chain -/

section Walk

variable {rules : List PropertyInfoEntry} {defaultContext defaultType : Bytes}
  {builder : TrieBuilder}

theorem find?_eq_some_of_unique {α : Type} {l : List α} {p : α → Bool} {x : α} (hx : x ∈ l)
    (hp : p x = true) (hu : ∀ y ∈ l, p y = true → y = x) : l.find? p = some x := by
  cases hf : l.find? p with
  | none => exact absurd hp (List.find?_eq_none.mp hf x hx)
  | some y => rw [hu y (List.mem_of_find?_eq_some hf) (List.find?_some hf)]

/-- Rules of one kind that live at the same level are told apart by their last names. -/
theorem eq_of_lastName (hb : Built rules defaultContext defaultType builder) {kind : RuleKind}
    (hk : kind ≠ .dotted) {path : List Bytes} {r r' : PropertyInfoEntry}
    (hr : r ∈ rulesAt rules kind path) (hr' : r' ∈ rulesAt rules kind path)
    (h : r.lastName = r'.lastName) : r = r' := by
  obtain ⟨hr, hkr, hpr⟩ := mem_rulesAt.mp hr
  obtain ⟨hr', hkr', hpr'⟩ := mem_rulesAt.mp hr'
  refine eq_of_slot hb.distinct hr hr' (hkr.trans hkr'.symm) ?_
  have hlevel : ∀ {r : PropertyInfoEntry}, r.kind = kind → r.levelPath = r.parts.dropLast :=
    fun hkr => if_neg (hkr ▸ hk)
  rw [parts_eq (hb.ruleOk r hr).ne_nil, parts_eq (hb.ruleOk r' hr').ne_nil, ← hlevel hkr,
    ← hlevel hkr', hpr, hpr', h]

/-- The first matching prefix entry of a node is its longest matching plain rule. -/
theorem firstPrefix_eq (hb : Built rules defaultContext defaultType builder) {path : List Bytes}
    {node : TrieBuilderNode}
    (hn : level node = levelOf rules defaultContext defaultType path) (remaining : Bytes) :
    firstPrefix node remaining = (plainRule rules path remaining).map entry := by
  have hpre : node.prefixes = (rulesAt rules .plain path).map entry := congrArg Level.prefixes hn
  have hmem : ∀ e, e ∈ node.sortedPrefixMatches ↔
      ∃ r ∈ rulesAt rules .plain path, r.entry = e := by
    intro e
    rw [mem_sortedPrefixMatches, hpre, List.mem_map]
  have hfilter : ∀ r, r ∈ (rulesAt rules .plain path).filter
      (fun r => decide (r.lastName <+: remaining)) ↔
        r ∈ rulesAt rules .plain path ∧ r.lastName <+: remaining := by
    intro r
    simp
  unfold firstPrefix plainRule longest
  cases hmax : ((rulesAt rules .plain path).filter
      fun r => decide (r.lastName <+: remaining)).argmax fun r => r.name.bytes.length with
  | none =>
    refine List.find?_eq_none.mpr fun e he hm => ?_
    obtain ⟨r, hr, rfl⟩ := (hmem e).mp he
    have hin := (hfilter r).mpr ⟨hr, List.isPrefixOf_iff_prefix.mp hm⟩
    rw [List.argmax_eq_none.mp hmax] at hin
    cases hin
  | some y =>
    obtain ⟨hy, hym⟩ := (hfilter y).mp (List.argmax_mem hmax)
    cases hf : node.sortedPrefixMatches.find? fun e => e.name.isPrefixOf remaining with
    | none =>
      have := List.find?_eq_none.mp hf y.entry ((hmem _).mpr ⟨y, hy, rfl⟩)
      exact absurd (List.isPrefixOf_iff_prefix.mpr hym) this
    | some e =>
      obtain ⟨x, hx, rfl⟩ := (hmem e).mp (List.mem_of_find?_eq_some hf)
      have hmatch := List.find?_some hf
      have hxm : x.lastName <+: remaining := List.isPrefixOf_iff_prefix.mp hmatch
      -- the first match in the order of the image is a longest one
      have hlen : y.lastName.length ≤ x.lastName.length := by
        obtain ⟨-, l1, l2, hsplit, hbefore⟩ := List.find?_eq_some_iff_append.mp hf
        have hyin := (hmem _).mpr ⟨y, hy, rfl⟩
        have hpw := pairwise_sortedPrefixMatches node
        rw [hsplit] at hyin hpw
        rcases List.mem_append.mp hyin with hin | hin
        · have := hbefore _ hin
          have hmatch : y.entry.name.isPrefixOf remaining = true :=
            List.isPrefixOf_iff_prefix.mpr hym
          rw [hmatch] at this
          cases this
        · rcases List.mem_cons.mp hin with heq | hin
          · rw [show y.lastName = x.lastName from congrArg PropertyEntryBuilder.name heq]
          · exact (List.pairwise_cons.mp (List.pairwise_append.mp hpw).2.1).1 _ hin
      have hxy : x.name.bytes.length ≤ y.name.bytes.length :=
        List.le_of_mem_argmax (f := fun r : PropertyInfoEntry => r.name.bytes.length)
          ((hfilter x).mpr ⟨hx, hxm⟩) hmax
      obtain ⟨hxr, hxk, hxp⟩ := mem_rulesAt.mp hx
      obtain ⟨hyr, hyk, hyp⟩ := mem_rulesAt.mp hy
      rw [name_plain (hb.ruleOk x hxr).ne_nil hxk, name_plain (hb.ruleOk y hyr).ne_nil hyk, hxp,
        hyp, List.length_append, List.length_append] at hxy
      have hlast : x.lastName = y.lastName :=
        List.IsPrefix.eq_of_length
          (List.prefix_of_prefix_length_le hxm hym (by omega)) (by omega)
      rw [eq_of_lastName hb (by decide) hx hy hlast]
      rfl

/-- The effect of a level on what has been found. -/
def levelStep (rules : List PropertyInfoEntry) (defaultContext defaultType : Bytes) (found : Found)
    (l : List Bytes × Bytes) : Found :=
  (found.take (levelEntry rules defaultContext defaultType l.1)).takeAny
    ((plainRule rules l.1 l.2).map entry)

/-- The walk visits the levels of the rules one after another. -/
theorem walk_levels (hb : Built rules defaultContext defaultType builder) {segs path : List Bytes}
    (hne : segs ≠ []) {node : TrieBuilderNode}
    (hn : ∀ q, flat node q = flat builder.root (path ++ q)) (hv : Visited rules path)
    {found found' : Found} {last : TrieBuilderNode} {remaining : Bytes}
    (h : walk segs node found = (last, remaining, found')) :
    found' = (visitedLevels rules path segs).foldl
        (levelStep rules defaultContext defaultType) found ∧
      ∃ p, (visitedLevels rules path segs).getLast? = some (p, remaining) ∧
        level last = levelOf rules defaultContext defaultType p := by
  induction segs generalizing path node found with
  | nil => exact absurd rfl hne
  | cons seg segs ih =>
    have hlevel : level node = levelOf rules defaultContext defaultType path := by
      have := hn []
      rw [List.append_nil, hb.flat, if_pos hv, flat_nil] at this
      exact Option.some.inj this
    have hentry : node.propertyEntry = levelEntry rules defaultContext defaultType path :=
      congrArg Level.entry hlevel
    rw [walk] at h
    rw [visitedLevels]
    rw [firstPrefix_eq hb hlevel, hentry] at h
    by_cases hs : segs = []
    · rw [if_pos hs] at h
      rw [if_neg (fun hc => hc.1 hs)]
      cases h
      exact ⟨rfl, path, rfl, hlevel⟩
    rw [if_neg hs] at h
    have hchild : (child node seg).map level = if Visited rules (path ++ [seg]) then
        some (levelOf rules defaultContext defaultType (path ++ [seg])) else none := by
      rw [← hb.flat, ← hn, flat_cons]
      cases child node seg <;> rfl
    cases hc : child node seg with
    | none =>
      have hnv : ¬ Visited rules (path ++ [seg]) := by
        intro hv'
        rw [hc, if_pos hv'] at hchild
        cases hchild
      rw [hc] at h
      rw [if_neg fun hc => hnv hc.2]
      cases h
      exact ⟨rfl, path, rfl, hlevel⟩
    | some c =>
      have hv' : Visited rules (path ++ [seg]) := by
        by_contra hnv
        rw [hc, if_neg hnv] at hchild
        cases hchild
      rw [hc] at h
      rw [if_pos ⟨hs, hv'⟩]
      have hnc : ∀ q, flat c q = flat builder.root (path ++ [seg] ++ q) := by
        intro q
        rw [List.append_assoc, List.singleton_append, ← hn, flat_cons, hc]
        rfl
      obtain ⟨hfound, p, hp, hlast⟩ := ih hs hnc hv' h
      refine ⟨hfound, p, ?_, hlast⟩
      rw [List.getLast?_cons, hp]
      rfl

/-- A walk that is not cut short ends at the last segment. -/
theorem getLast?_visitedLevels {path segs : List Bytes} {last : Bytes}
    (hv : Visited rules (path ++ segs)) :
    (visitedLevels rules path (segs ++ [last])).getLast? = some (path ++ segs, last) := by
  induction segs generalizing path with
  | nil => simp [visitedLevels, joinDot]
  | cons seg segs ih =>
    have hpre : Visited rules (path ++ [seg]) := by
      rcases hv with hv | ⟨r, hr, hp⟩
      · simp at hv
      · exact .inr ⟨r, hr, List.IsPrefix.trans ⟨segs, by simp⟩ hp⟩
    rw [List.cons_append, visitedLevels, if_pos ⟨by simp, hpre⟩, List.getLast?_cons, ih (by simpa)]
    simp

/-- The levels of a walk cut the name in two. -/
theorem dotPath_of_mem_visitedLevels {path segs p : List Bytes} {remaining : Bytes}
    (h : (p, remaining) ∈ visitedLevels rules path segs) :
    dotPath p ++ remaining = dotPath path ++ joinDot segs := by
  induction segs generalizing path with
  | nil => cases h
  | cons seg segs ih =>
    rw [visitedLevels, List.mem_cons] at h
    rcases h with h | h
    · cases h
      rfl
    · split_ifs at h with hv
      · obtain ⟨s, rest, hs⟩ := List.exists_cons_of_ne_nil hv.1
        rw [ih h, dotPath_append, dotPath_cons, dotPath_nil, hs, joinDot, ← hs]
        simp
      · cases h

/-- At the end of the walk, the exact entry is the exact rule. -/
theorem exactMatch_eq (hb : Built rules defaultContext defaultType builder) {name : Bytes}
    {p : List Bytes} {remaining : Bytes} {last : TrieBuilderNode}
    (hp : (visitedLevels rules [] (splitDot name)).getLast? = some (p, remaining))
    (hn : level last = levelOf rules defaultContext defaultType p) :
    exactMatch last remaining = (exactRule rules name).map entry := by
  have hex : last.exactMatches = (rulesAt rules .exactMatch p).map entry :=
    congrArg Level.exactMatches hn
  have hcut : dotPath p ++ remaining = name := by
    rw [dotPath_of_mem_visitedLevels (List.mem_of_getLast? hp)]
    exact joinDot_splitDot name
  have hkind : ∀ r : PropertyInfoEntry, r.exactMatch = true ↔ r.kind = .exactMatch := by
    intro r
    rw [← not_iff_not, Bool.not_eq_true]
    exact exactMatch_eq_false_iff
  have hpath : ∀ {r : PropertyInfoEntry}, r.kind = .exactMatch → r.levelPath = r.parts.dropLast :=
    fun hk => if_neg (by simp [hk])
  -- an exact rule for the name lives where the walk ends, under the remaining name
  have hiff : ∀ r ∈ rules, (r.exactMatch = true ∧ dropTrailingDot r.name.bytes = name) ↔
      r ∈ rulesAt rules .exactMatch p ∧ r.lastName = remaining := by
    intro r hr
    have hok := hb.ruleOk r hr
    rw [dropTrailingDot_name hok, mem_rulesAt, hkind]
    constructor
    · rintro ⟨hk, hj⟩
      have hsplit : splitDot name = r.parts.dropLast ++ [r.lastName] := by
        rw [← hj, ← parts_eq hok.ne_nil]
        exact splitDot_joinDot hok.ne_nil fun s hs => (mem_of_mem_splitDot (mem_parts hs)).2
      have hv : Visited rules ([] ++ r.parts.dropLast) :=
        .inr ⟨r, hr, by rw [hpath hk]; exact List.prefix_rfl⟩
      rw [hsplit, getLast?_visitedLevels hv] at hp
      obtain ⟨hp1, hp2⟩ := Prod.mk.inj (Option.some.inj hp)
      exact ⟨⟨hr, hk, (hpath hk).trans hp1⟩, hp2⟩
    · rintro ⟨⟨-, hk, hlp⟩, rfl⟩
      refine ⟨hk, ?_⟩
      rw [← hcut, parts_eq hok.ne_nil, joinDot_append (by simp), ← hpath hk, hlp]
      rfl
  unfold exactMatch exactRule
  cases hf : rules.find? fun r =>
      decide (r.exactMatch = true ∧ dropTrailingDot r.name.bytes = name) with
  | none =>
    refine List.find?_eq_none.mpr fun e he hm => ?_
    rw [mem_sortedExactMatches, hex, List.mem_map] at he
    obtain ⟨r, hr, rfl⟩ := he
    have hrem : r.lastName = remaining := of_decide_eq_true hm
    have hrr := (mem_rulesAt.mp hr).1
    have := List.find?_eq_none.mp hf r hrr
    exact this (by simpa using (hiff r hrr).mpr ⟨hr, hrem⟩)
  | some r =>
    have hr := List.mem_of_find?_eq_some hf
    have hcond := List.find?_some hf
    obtain ⟨hat, hrem⟩ := (hiff r hr).mp (by simpa using hcond)
    refine find?_eq_some_of_unique ?_ (decide_eq_true hrem) fun e he hm => ?_
    · rw [mem_sortedExactMatches, hex]
      exact List.mem_map_of_mem hat
    · rw [mem_sortedExactMatches, hex, List.mem_map] at he
      obtain ⟨r', hr', rfl⟩ := he
      have hrem' : r'.lastName = remaining := of_decide_eq_true hm
      rw [eq_of_lastName hb (by decide) hr' hat (hrem'.trans hrem.symm)]

end Walk

/-! ### The lookup on the trie -/

section Lookup

variable {rules : List PropertyInfoEntry} {defaultContext defaultType : Bytes}
  {builder : TrieBuilder}

/-- A string as something found: an empty one counts as nothing. -/
def nonEmpty (s : Bytes) : Option Bytes := if s = [] then none else some s

/-- Take over what a rule says. -/
def takeRule (found : Found) (r : PropertyInfoEntry) : Found := found.take r.entry

theorem pick_some (s : Bytes) (o : Option Bytes) : pick (some s) o = if s = [] then o else some s :=
  rfl

/-- Taking over the same entry twice changes nothing more. -/
theorem takeAny_takeAny (found : Found) (e : Option PropertyEntryBuilder) :
    (found.takeAny e).takeAny e = found.takeAny e := by
  have hpick : ∀ a b : Option Bytes, pick a (pick a b) = pick a b := by
    intro a b
    unfold pick
    split_ifs <;> rfl
  cases e with
  | none => rfl
  | some e => simp only [Found.takeAny, Option.elim_some, Found.take, hpick]

/-- Below the root, the effect of a level is that of its rules. -/
theorem levelStep_eq (found : Found) {path : List Bytes} (hne : path ≠ []) (remaining : Bytes) :
    levelStep rules defaultContext defaultType found (path, remaining) =
      (levelRules rules (path, remaining)).foldl takeRule found := by
  have hdot : found.take (levelEntry rules defaultContext defaultType path) =
      (dotRule rules path).toList.foldl takeRule found := by
    rw [levelEntry, if_neg hne]
    cases dotRule rules path <;> rfl
  rw [levelStep, levelRules, List.foldl_append, hdot]
  cases plainRule rules path remaining <;> rfl

theorem foldl_levelStep (found : Found) {path : List Bytes} (hne : path ≠ []) (segs : List Bytes) :
    (visitedLevels rules path segs).foldl (levelStep rules defaultContext defaultType) found =
      (prefixChain rules path segs).foldl takeRule found := by
  induction segs generalizing path found with
  | nil => rfl
  | cons seg segs ih =>
    rw [prefixChain, visitedLevels, List.flatMap_cons, List.foldl_cons, List.foldl_append,
      levelStep_eq found hne]
    split_ifs with hv
    · exact ih _ (by simp)
    · rfl

/-- From the root on, the walk starts with the defaults. -/
theorem foldl_levelStep_root (hok : ∀ r ∈ rules, RuleOk r) (segs : List Bytes) (hne : segs ≠ []) :
    (visitedLevels rules [] segs).foldl (levelStep rules defaultContext defaultType) ⟨none, none⟩ =
      (prefixChain rules [] segs).foldl takeRule ⟨nonEmpty defaultContext, nonEmpty defaultType⟩ := by
  obtain ⟨seg, segs, rfl⟩ := List.exists_cons_of_ne_nil hne
  have hnone : dotRule rules [] = none := by
    cases h : dotRule rules [] with
    | none => rfl
    | some r =>
      obtain ⟨hr, hk, hp⟩ := dotRule_eq_some h
      rw [PropertyInfoEntry.levelPath, hk, if_pos rfl] at hp
      exact absurd hp (hok r hr).ne_nil
  have hroot : levelStep rules defaultContext defaultType ⟨none, none⟩
      ([], joinDot (seg :: segs)) =
      (levelRules rules ([], joinDot (seg :: segs))).foldl takeRule
        ⟨nonEmpty defaultContext, nonEmpty defaultType⟩ := by
    rw [levelRules, hnone]
    unfold levelStep
    cases plainRule rules [] (joinDot (seg :: segs)) <;> rfl
  rw [prefixChain, visitedLevels, List.flatMap_cons, List.foldl_cons, List.foldl_append, hroot]
  split_ifs with hv
  · exact foldl_levelStep _ (by simp) segs
  · rfl

/-- The rules of a chain, folded: types are inherited. -/
theorem foldl_takeRule_type (chain : List PropertyInfoEntry) (context : Option Bytes) (s : Bytes) :
    (chain.foldl takeRule ⟨context, nonEmpty s⟩).type =
      nonEmpty (chain.foldl
        (fun found r => if r.typeStr.bytes = [] then found else r.typeStr.bytes) s) := by
  induction chain generalizing context s with
  | nil => rfl
  | cons r chain ih =>
    have hstep : takeRule ⟨context, nonEmpty s⟩ r = ⟨pick (some r.context.bytes) context,
        nonEmpty (if r.typeStr.bytes = [] then s else r.typeStr.bytes)⟩ := by
      unfold takeRule Found.take
      congr 1
      rw [show r.entry.rtype = some r.typeStr.bytes from rfl, pick_some]
      split_ifs with ht
      · rfl
      · rw [nonEmpty, if_neg ht]
    rw [List.foldl_cons, List.foldl_cons, hstep]
    exact ih _ _

/-- The rules of a chain, folded: with non-empty contexts, the last rule decides. -/
theorem foldl_takeRule_context {chain : List PropertyInfoEntry}
    (hc : ∀ r ∈ chain, r.context.bytes ≠ []) (found : Found) :
    (chain.foldl takeRule found).context =
      chain.getLast?.elim found.context fun r => some r.context.bytes := by
  rcases List.eq_nil_or_concat chain with rfl | ⟨init, r, rfl⟩
  · rfl
  · have hr := hc r (by simp)
    rw [List.concat_eq_append, List.foldl_append, List.getLast?_concat]
    exact if_neg hr

/-- **The lookup on the trie is longest match over the rules.** -/
theorem lookup_eq (hb : Built rules defaultContext defaultType builder)
    (hc : ∀ r ∈ rules, r.context.bytes ≠ []) (name : Bytes) :
    lookup builder.root name =
      ⟨nonEmpty (ruleContext rules defaultContext name),
        nonEmpty (ruleType rules defaultType name)⟩ := by
  obtain ⟨⟨last, remaining, found⟩, hw⟩ :
      ∃ r, walk (splitDot name) builder.root ⟨none, none⟩ = r := ⟨_, rfl⟩
  have hne := splitDot_ne_nil name
  obtain ⟨hfound, p, hp, hlast⟩ := walk_levels hb hne (fun _ => rfl) (.inl rfl) hw
  have hexact := exactMatch_eq hb hp hlast
  -- the second scan of the prefix entries repeats what the last level did
  have hagain : found.takeAny (firstPrefix last remaining) = found := by
    obtain ⟨init, hinit⟩ : ∃ init, visitedLevels rules [] (splitDot name) =
        init ++ [(p, remaining)] := ⟨_, (List.dropLast_append_getLast? _ hp).symm⟩
    rw [firstPrefix_eq hb hlast, hfound, hinit, List.foldl_append]
    exact takeAny_takeAny _ _
  have hchain : lookup builder.root name = (ruleChain rules name).foldl takeRule
      ⟨nonEmpty defaultContext, nonEmpty defaultType⟩ := by
    rw [lookup, hw]
    dsimp only
    rw [hexact, ruleChain, List.foldl_append, ← foldl_levelStep_root hb.ruleOk _ hne, ← hfound]
    cases exactRule rules name with
    | none => exact hagain
    | some r => rfl
  have hmem : ∀ r ∈ ruleChain rules name, r.context.bytes ≠ [] := by
    intro r hr
    rcases List.mem_append.mp hr with hr | hr
    · exact hc r (mem_prefixChain hb.ruleOk hr).1
    · exact hc r (List.mem_of_find?_eq_some (Option.mem_toList.mp hr))
  rw [hchain]
  have htype := foldl_takeRule_type (ruleChain rules name) (nonEmpty defaultContext) defaultType
  have hcontext := foldl_takeRule_context hmem ⟨nonEmpty defaultContext, nonEmpty defaultType⟩
  have hlastRule : (ruleChain rules name).getLast? =
      (exactRule rules name).or (prefixRule rules name) := by
    rw [ruleChain, List.getLast?_append, getLast?_prefixChain hb.ruleOk hb.distinct]
    cases exactRule rules name <;> rfl
  rw [hlastRule] at hcontext
  have hctx : ((exactRule rules name).or (prefixRule rules name)).elim (nonEmpty defaultContext)
      (fun r => some r.context.bytes) = nonEmpty (ruleContext rules defaultContext name) := by
    unfold ruleContext
    cases hr : (exactRule rules name).or (prefixRule rules name) with
    | none => rfl
    | some r =>
      rw [← hlastRule] at hr
      have := hmem r (List.mem_of_getLast? hr)
      exact (if_neg this).symm
  rw [← hctx, ← hcontext, ruleType, ← htype]

end Lookup

/-! ### The image of the rules -/

section Image

/-- The nodes of a built trie have storable names. -/
theorem treeOk_of_built {rules : List PropertyInfoEntry} {defaultContext defaultType : Bytes}
    {builder : TrieBuilder} (hb : Built rules defaultContext defaultType builder) :
    TreeOk builder.root := by
  intro path node hn
  have hlevel := (hb.node hn).2
  have hnames : ∀ kind, ∀ e ∈ (rulesAt rules kind path).map entry, SegName e.name := by
    intro kind e he
    obtain ⟨r, hr, rfl⟩ := List.mem_map.mp he
    have hok := hb.ruleOk r (mem_rulesAt.mp hr).1
    refine hok.parts _ ?_
    rw [parts_eq hok.ne_nil]
    exact List.mem_append_right _ (List.mem_singleton_self _)
  obtain ⟨hkeys, hnodup⟩ := hb.keys path node hn
  refine ⟨?_, ?_, fun c hc => hkeys _ (List.mem_map_of_mem hc), hnodup⟩
  · rw [show node.prefixes = _ from congrArg Level.prefixes hlevel]
    exact hnames .plain
  · rw [show node.exactMatches = _ from congrArg Level.exactMatches hlevel]
    exact hnames .exactMatch

/-- What the parser sees of a successful build. -/
theorem buildTrie_eq_ok {rules : List PropertyInfoEntry} {defaultContext defaultType : Str}
    {bytes : Bytes} (h : buildTrie rules defaultContext defaultType = .ok bytes) :
    ∃ builder area, Built rules defaultContext.bytes defaultType.bytes builder ∧
      PropertyInfoArea.new bytes = some area ∧ ImageOf builder area.data area.size := by
  obtain ⟨_, h1, h⟩ := StateExcept.except_bind_eq_ok.mp h
  obtain ⟨_, h2, h⟩ := StateExcept.except_bind_eq_ok.mp h
  obtain ⟨builder, hadd, h⟩ := StateExcept.except_bind_eq_ok.mp h
  have hb : Built rules defaultContext.bytes defaultType.bytes builder := by
    refine built_addRules (built_new ⟨?_, defaultContext.valid⟩ ⟨?_, defaultType.valid⟩) hadd
    · exact validateNoInteriorNul_eq_ok.mp h1
    · exact validateNoInteriorNul_eq_ok.mp h2
  cases hser : TrieSerializer.serialize builder TrieNodeArena.new with
  | error e arena =>
    rw [hser] at h
    cases h
  | ok u arena =>
    rw [hser] at h
    cases h
    have himg := serialize_eq_ok hb.contexts hb.types hser
    have hlen : arena.intoData.length = arena.size := length_slice _ _ _
    have hle : infoHeaderSize ≤ arena.intoData.length := hlen ▸ himg.header
    have hsame : SameOn arena.data (fun i => arena.intoData.getD i 0) 0 arena.size := by
      intro i _ hi
      simp [TrieNodeArena.intoData, slice, List.getElem?_map, List.getElem?_range hi]
    refine ⟨builder, ⟨fun i => arena.intoData.getD i 0, arena.intoData.length, hle⟩, hb,
      dif_pos hle, ?_⟩
    dsimp only
    rw [hlen]
    have hh : infoHeaderSize = 24 := rfl
    have hsz := himg.header
    refine ⟨himg.header, himg.bound, ?_, ?_⟩
    · exact himg.tables.stable (hsame.mono (by omega) le_rfl) (hsame.mono (by omega) (by omega)) le_rfl
    · rw [← readU32_congr (hsame.mono (by omega) (by omega))]
      exact (nodeAt_stable _).mono himg.root hsame le_rfl le_rfl

/-- An index reads back as a string through its table; the empty string has no index. -/
def ReadsAs (area : PropertyInfoArea) (offsetAt : ℕ → ExceptT Error Logged ℕ) (index : ℕ)
    (s : Bytes) : Prop :=
  if s = [] then index = noIndex
  else ∃ offset, offsetAt index = pure offset ∧ area.cstr offset = .ok s

/-- The index of a table's string reads back as that string. -/
theorem readsAs_of_isIndex {area : PropertyInfoArea} {lo hi off : ℕ} {strings : List Bytes}
    (hsize : area.size < 2 ^ 32) (ht : TableAt area.data lo hi strings off) (hhi : hi ≤ area.size)
    (hok : TableOk strings) (kind field : String) {s : Bytes} {i : ℕ}
    (h : IsIndex strings (nonEmpty s) i) :
    ReadsAs area (area.stringOffset kind field off (area.tableCount off)) i s := by
  unfold ReadsAs
  by_cases hs : s = []
  · rw [if_pos hs]
    rwa [nonEmpty, if_pos hs] at h
  · rw [if_neg hs]
    rw [nonEmpty, if_neg hs, IsIndex, if_neg (by simpa using hs)] at h
    obtain ⟨o, ho, hstr⟩ := stringOffset_eq hsize ht hhi kind field h.2
    have htext := hok.text s (List.mem_of_getElem? h.2)
    exact ⟨o, ho, cstr_eq_ok hstr hhi htext.nul⟩

/-- **Property-info lookup is longest match over the rule list.** On the image `build_trie` writes
for a list of rules with non-empty contexts, the lookup of any name writes no warning, and the indexes it
returns read back as the context and the type the rules give the name. -/
theorem getPropertyInfoIndexes_buildTrie {rules : List PropertyInfoEntry}
    {defaultContext defaultType : Str} {bytes : Bytes}
    (hbuild : buildTrie rules defaultContext defaultType = .ok bytes)
    (hcontext : ∀ r ∈ rules, r.context.bytes ≠ []) (name : Str) :
    ∃ area ix, PropertyInfoArea.new bytes = some area ∧
      area.getPropertyInfoIndexes name.bytes = pure ix ∧
      ReadsAs area area.contextOffset ix.context
        (ruleContext rules defaultContext.bytes name.bytes) ∧
      ReadsAs area area.typeOffset ix.type (ruleType rules defaultType.bytes name.bytes) := by
  obtain ⟨builder, area, hb, hnew, himg⟩ := buildTrie_eq_ok hbuild
  obtain ⟨ix, hrun, hden⟩ := getPropertyInfoIndexes_eq himg.bound le_rfl himg.root
    (treeOk_of_built hb) name.bytes
  rw [lookup_eq hb hcontext] at hden
  exact ⟨area, ix, hnew, hrun,
    readsAs_of_isIndex himg.bound himg.tables.contexts le_rfl hb.contexts _ _ hden.context,
    readsAs_of_isIndex himg.bound himg.tables.types le_rfl hb.types _ _ hden.type⟩

/-- Two rules: everything behind `a.`, with a type, and one exact name without a type of its own. -/
def sampleRules : List PropertyInfoEntry :=
  [⟨⟨ascii "a.", by decide⟩, ⟨ascii "ca", by decide⟩, ⟨ascii "int", by decide⟩, false⟩,
    ⟨⟨ascii "a.b", by decide⟩, ⟨ascii "cb", by decide⟩, ⟨ascii "", by decide⟩, true⟩]

theorem getPropertyInfoIndexes_buildTrie_sample :
    ∃ bytes area ix,
      buildTrie sampleRules ⟨ascii "def", by decide⟩ ⟨ascii "", by decide⟩ = .ok bytes ∧
      PropertyInfoArea.new bytes = some area ∧
      area.getPropertyInfoIndexes (ascii "a.b") = pure ix ∧
      ReadsAs area area.contextOffset ix.context (ascii "cb") ∧
      ReadsAs area area.typeOffset ix.type (ascii "int") := by
  have hok : (buildTrie sampleRules ⟨ascii "def", by decide⟩ ⟨ascii "", by decide⟩).isOk = true := by
    decide +kernel
  cases hbuild : buildTrie sampleRules ⟨ascii "def", by decide⟩ ⟨ascii "", by decide⟩ with
  | error e =>
    rw [hbuild] at hok
    cases hok
  | ok bytes =>
    obtain ⟨area, ix, hnew, hrun, hctx, htyp⟩ := getPropertyInfoIndexes_buildTrie hbuild
      (by decide) ⟨ascii "a.b", by decide⟩
    have hc : ruleContext sampleRules (ascii "def") (ascii "a.b") = ascii "cb" := by decide +kernel
    have ht : ruleType sampleRules (ascii "") (ascii "a.b") = ascii "int" := by decide +kernel
    exact ⟨bytes, area, ix, rfl, hnew, hrun, hc ▸ hctx, ht ▸ htyp⟩

end Image

end InfoTrie

end RsProperties
