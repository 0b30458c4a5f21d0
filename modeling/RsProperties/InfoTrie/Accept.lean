import RsProperties.InfoTrie.LongestMatch

/-!
# Which rule lists the builder accepts

`add_to_trie` checks a rule by itself and then the slot it wants: an exact or prefix entry of its level, or
the entry of the level itself. The slots of two rules are the same exactly when they have the same kind and the
same segments, so a list is accepted when every rule passes its own checks and no slot is taken twice
(`addRules_isOk_iff`). In terms of the rules as written, this is `RulesOk`.
-/

namespace RsProperties.InfoTrie

open ByteMem TrieBuilderNode StateExcept PropertyInfoEntry

variable {rules : List PropertyInfoEntry} {rule : PropertyInfoEntry}
  {defaultContext defaultType : Bytes} {builder builder' : TrieBuilder}

/-! ### One slot -/

/-- The errors of a rule whose slot is taken. -/
def IsDuplicate (e : Error) : Prop := ∃ name : String,
  e = .fileValidation s!"Exact match already exists for '{name}'" ∨
  e = .fileValidation s!"Prefix already exists for '{name}'" ∨
  e = .fileValidation s!"Duplicate prefix match detected for '{name}'"

/-- The work of a rule at its level succeeds when its slot is free. -/
theorem ruleStep_eq (rule : PropertyInfoEntry) (node : TrieBuilderNode) :
    (∃ node', ruleStep rule node = .ok node') ∨
    (∃ e, IsDuplicate e ∧ ruleStep rule node = .error e ∧ match rule.kind with
      | .exactMatch => ∃ x ∈ node.exactMatches, x.name = rule.lastName
      | .plain => ∃ x ∈ node.prefixes, x.name = rule.lastName
      | .dotted => node.propertyEntry.context.isSome ∨ node.propertyEntry.rtype.isSome) := by
  unfold ruleStep
  cases hk : rule.kind with
  | exactMatch =>
    simp only [addExactMatchContext]
    split_ifs with h
    · exact .inr ⟨_, ⟨_, .inl rfl⟩, rfl, by simpa using h⟩
    · exact .inl ⟨_, rfl⟩
  | plain =>
    simp only [addPrefixContext]
    split_ifs with h
    · exact .inr ⟨_, ⟨_, .inr (.inl rfl)⟩, rfl, by simpa using h⟩
    · exact .inl ⟨_, rfl⟩
  | dotted =>
    simp only [setRule]
    split_ifs with h
    · exact .inr ⟨_, ⟨_, .inr (.inr rfl)⟩, rfl, by simpa using h⟩
    · exact .inl ⟨_, rfl⟩

/-- Rules of one kind at one level with one last name have the same segments. -/
theorem parts_eq_of_slot {r : PropertyInfoEntry} (hr : RuleOk r) (hrule : RuleOk rule)
    (hk : r.kind = rule.kind) (hpath : r.levelPath = rule.levelPath)
    (hname : rule.kind = .dotted ∨ r.lastName = rule.lastName) : r.parts = rule.parts := by
  rw [PropertyInfoEntry.levelPath, PropertyInfoEntry.levelPath, hk] at hpath
  by_cases hd : rule.kind = .dotted
  · rwa [if_pos hd, if_pos hd] at hpath
  · rw [if_neg hd, if_neg hd] at hpath
    rw [parts_eq hr.ne_nil, parts_eq hrule.ne_nil, hpath, hname.resolve_left hd]

/-- A taken slot was taken by one of the rules so far. -/
theorem Built.ruleStep_error (hb : Built rules defaultContext defaultType builder)
    (hrule : RuleOk rule) {e : Error}
    (h : ruleStep rule (nodeAt builder.root rule.levelPath) = .error e) :
    IsDuplicate e ∧ ∃ r ∈ rules, r.kind = rule.kind ∧ r.parts = rule.parts := by
  have hlevel : level (nodeAt builder.root rule.levelPath) =
      levelOf rules defaultContext defaultType rule.levelPath := by
    rw [level_nodeAt, hb.getD_flat]
  generalize nodeAt builder.root rule.levelPath = node at h hlevel
  -- the rule that occupies the slot
  have hfound : ∀ r ∈ rulesAt rules rule.kind rule.levelPath,
      rule.kind = .dotted ∨ r.lastName = rule.lastName →
      ∃ r ∈ rules, r.kind = rule.kind ∧ r.parts = rule.parts := by
    intro r hr hname
    obtain ⟨hr, hk, hpath⟩ := mem_rulesAt.mp hr
    exact ⟨r, hr, hk, parts_eq_of_slot (hb.ruleOk r hr) hrule hk hpath hname⟩
  rcases ruleStep_eq rule node with ⟨node', hok⟩ | ⟨e', he', herr, hslot⟩
  · rw [hok] at h
    cases h
  rw [herr] at h
  cases h
  refine ⟨he', ?_⟩
  cases hk : rule.kind with
  | exactMatch =>
    simp only [hk] at hslot hfound ⊢
    obtain ⟨x, hx, hname⟩ := hslot
    rw [show node.exactMatches = _ from congrArg Level.exactMatches hlevel] at hx
    obtain ⟨r, hr, rfl⟩ := List.mem_map.mp hx
    exact hfound r hr (.inr hname)
  | plain =>
    simp only [hk] at hslot hfound ⊢
    obtain ⟨x, hx, hname⟩ := hslot
    rw [show node.prefixes = _ from congrArg Level.prefixes hlevel] at hx
    obtain ⟨r, hr, rfl⟩ := List.mem_map.mp hx
    exact hfound r hr (.inr hname)
  | dotted =>
    simp only [hk] at hslot hfound ⊢
    have hne : rule.levelPath ≠ [] := by
      rw [PropertyInfoEntry.levelPath, hk]
      exact hrule.ne_nil
    rw [show node.propertyEntry = _ from congrArg Level.entry hlevel] at hslot
    simp only [levelOf, levelEntry, if_neg hne, Option.isSome_map, or_self] at hslot
    obtain ⟨r, hr⟩ := Option.isSome_iff_exists.mp hslot
    exact hfound r (List.mem_of_mem_head? hr) (.inl trivial)

/-! ### The list of rules -/

/-- The slot of a rule. -/
def slot (r : PropertyInfoEntry) : RuleKind × List Bytes := (r.kind, r.parts)

/-- **One more rule** is accepted when it passes its own checks and its slot is free; otherwise the
error says so. -/
theorem Built.addToTrie_cases (hb : Built rules defaultContext defaultType builder)
    (rule : PropertyInfoEntry) :
    (RuleChecked rule ∧ slot rule ∉ rules.map slot ∧ ∃ builder', builder.addToTrie
      rule.name.bytes rule.context.bytes rule.typeStr.bytes rule.exactMatch = .ok builder') ∨
    (¬ (RuleChecked rule ∧ slot rule ∉ rules.map slot) ∧
      ∃ e, (Error.isRuleCheck e = true ∨ IsDuplicate e) ∧ builder.addToTrie
        rule.name.bytes rule.context.bytes rule.typeStr.bytes rule.exactMatch = .error e) := by
  by_cases hc : RuleChecked rule
  · cases hd : descend (ruleStep rule) rule.levelPath builder.root with
    | error e =>
      obtain ⟨hdup, r, hr, hk, hp⟩ := hb.ruleStep_error hc.ruleOk (descend_eq_error.mp hd)
      refine .inr ⟨fun hacc => hacc.2 (List.mem_map.mpr ⟨r, hr, ?_⟩), e, .inr hdup, ?_⟩
      · rw [slot, slot, hk, hp]
      · rw [addToTrie_of_checked hc, except_bind_error hd]
    | ok root =>
      have hok : builder.addToTrie rule.name.bytes rule.context.bytes rule.typeStr.bytes
          rule.exactMatch = .ok _ := (addToTrie_of_checked hc builder).trans (except_bind_ok hd)
      have hdist := (hb.addToTrie hok).distinct
      rw [List.map_append, List.nodup_append] at hdist
      refine .inl ⟨hc, fun hmem => ?_, _, hok⟩
      exact hdist.2.2 _ hmem (slot rule) (by simp [slot]) rfl
  · obtain ⟨e, he, hr⟩ := addToTrie_of_not_checked hc builder
    exact .inr ⟨fun hacc => hc hacc.1, e, .inl he, hr⟩

/-- **The builder accepts** a list of rules exactly when each passes its own checks and no slot is
taken twice. -/
theorem addRules_cases (hb : Built rules defaultContext defaultType builder)
    (more : List PropertyInfoEntry) :
    ((∀ r ∈ more, RuleChecked r) ∧ ((rules ++ more).map slot).Nodup ∧
      ∃ builder', addRules more builder = .ok builder') ∨
    (¬ ((∀ r ∈ more, RuleChecked r) ∧ ((rules ++ more).map slot).Nodup) ∧
      ∃ e, (Error.isRuleCheck e = true ∨ IsDuplicate e) ∧ addRules more builder = .error e) := by
  induction more generalizing rules builder with
  | nil =>
    rw [List.append_nil]
    exact .inl ⟨by simp, hb.distinct, builder, rfl⟩
  | cons rule more ih =>
    have happ : rules ++ rule :: more = rules ++ [rule] ++ more := by simp
    rw [addRules]
    rcases hb.addToTrie_cases rule with ⟨hc, hslot, b1, hr⟩ | ⟨hbad, e, he, hr⟩
    · rw [except_bind_ok hr]
      rcases ih (hb.addToTrie hr) with ⟨hchk, hnd, hok⟩ | ⟨hbad, herr⟩
      · exact .inl ⟨by simpa using ⟨hc, hchk⟩, happ ▸ hnd, hok⟩
      · refine .inr ⟨fun hacc => hbad ⟨fun r hr => hacc.1 r (List.mem_cons_of_mem _ hr), ?_⟩, herr⟩
        exact happ ▸ hacc.2
    · rw [except_bind_error hr]
      refine .inr ⟨fun hacc => hbad ⟨hacc.1 rule (by simp), fun hmem => ?_⟩, e, he, rfl⟩
      have hnd := hacc.2
      rw [List.map_append, List.nodup_append] at hnd
      exact hnd.2.2 _ hmem (slot rule) (by simp) rfl

/-! ### The rules as written -/

/-- The segments of a rule's name, after one optional trailing dot. -/
def ruleSegments (r : PropertyInfoEntry) : List Bytes := splitDot (dropTrailingDot r.name.bytes)

/-- The rule lists without a fault: no NUL, 1 to 256 non-empty segments, no two exact rules for the
same name and no two other rules with the same name. -/
structure RulesOk (rules : List PropertyInfoEntry) : Prop where
  nul : ∀ r ∈ rules, 0 ∉ r.name.bytes ∧ 0 ∉ r.context.bytes ∧ 0 ∉ r.typeStr.bytes
  segments : ∀ r ∈ rules, 1 ≤ (ruleSegments r).length ∧ (ruleSegments r).length ≤ 256 ∧
    ∀ s ∈ ruleSegments r, s ≠ []
  exactNames : rules.Pairwise fun r r' => r.exactMatch = true → r'.exactMatch = true →
    dropTrailingDot r.name.bytes ≠ dropTrailingDot r'.name.bytes
  prefixNames : rules.Pairwise fun r r' => r.exactMatch = false → r'.exactMatch = false →
    r.name.bytes ≠ r'.name.bytes

theorem ruleSegments_of_ok (h : RuleOk rule) : ruleSegments rule = rule.parts := by
  rw [ruleSegments, dropTrailingDot_name h]
  exact splitDot_joinDot h.ne_nil fun p hp => (mem_of_mem_splitDot (mem_parts hp)).2

theorem parts_of_segments (h : ∀ s ∈ ruleSegments rule, s ≠ []) :
    rule.parts = ruleSegments rule := by
  unfold PropertyInfoEntry.parts nameParts
  unfold ruleSegments dropTrailingDot at h ⊢
  dsimp only
  by_cases hdot : rule.name.bytes.getLast? = some dot
  · rw [if_pos hdot] at h ⊢
    have hname := List.dropLast_append_getLast? dot hdot
    generalize rule.name.bytes.dropLast = x at h hname ⊢
    have hsegs := splitDot_ne_nil x
    have hsplit : splitDot rule.name.bytes = splitDot x ++ [[]] := by
      have hjoin : joinDot (splitDot x ++ [[]]) = x ++ [dot] := by
        rw [joinDot_append (by simp), ← joinDot_snoc_nil hsegs, joinDot_splitDot]
        simp [joinDot]
      rw [← hname, ← hjoin]
      refine splitDot_joinDot (by simp) fun s hs => ?_
      rcases List.mem_append.mp hs with hs | hs
      · exact (mem_of_mem_splitDot hs).2
      · rw [List.mem_singleton.mp hs]
        simp
    rw [hsplit, if_pos (by simp)]
    simp
  · rw [if_neg hdot] at h ⊢
    rw [if_neg]
    intro hlast
    exact h [] (List.mem_of_getLast? hlast) rfl

theorem ruleChecked_iff : RuleChecked rule ↔
    (0 ∉ rule.name.bytes ∧ 0 ∉ rule.context.bytes ∧ 0 ∉ rule.typeStr.bytes) ∧
      1 ≤ (ruleSegments rule).length ∧ (ruleSegments rule).length ≤ 256 ∧
      ∀ s ∈ ruleSegments rule, s ≠ [] := by
  constructor
  · intro h
    have hlen := h.length
    rw [ruleSegments_of_ok h.ruleOk]
    exact ⟨⟨h.name, h.context, h.type⟩, List.length_pos_of_ne_nil h.ne_nil, hlen, h.segments⟩
  · rintro ⟨⟨hn, hc, ht⟩, hpos, hlen, hsegs⟩
    have hparts := parts_of_segments hsegs
    rw [← hparts] at hpos hlen hsegs
    exact ⟨hn, hc, ht, hlen, hsegs, List.ne_nil_of_length_pos hpos⟩

/-- Two rules want the same slot when they are exact rules for one name, or other rules with one
name. -/
theorem slot_eq_iff {r r' : PropertyInfoEntry} (h : RuleOk r) (h' : RuleOk r') :
    slot r = slot r' ↔
      (r.exactMatch = true ∧ r'.exactMatch = true ∧
        dropTrailingDot r.name.bytes = dropTrailingDot r'.name.bytes) ∨
      (r.exactMatch = false ∧ r'.exactMatch = false ∧ r.name.bytes = r'.name.bytes) := by
  have hkind : ∀ r : PropertyInfoEntry, r.exactMatch = false →
      r.kind = if r.endsWithDot then .dotted else .plain := fun r he => by
    rw [PropertyInfoEntry.kind, he]
    rfl
  have hexact : ∀ r : PropertyInfoEntry, r.exactMatch = true → r.kind = .exactMatch := fun r he =>
    if_pos he
  rw [slot, slot, Prod.mk.injEq]
  constructor
  · rintro ⟨hk, hp⟩
    cases he : r.exactMatch with
    | true =>
      have he' : r'.exactMatch = true := by
        by_contra hne
        have := exactMatch_eq_false_iff.mp (Bool.eq_false_iff.mpr hne)
        exact this (hk ▸ hexact r he)
      refine .inl ⟨rfl, he', ?_⟩
      rw [dropTrailingDot_name h, dropTrailingDot_name h', hp]
    | false =>
      have he' : r'.exactMatch = false :=
        exactMatch_eq_false_iff.mpr (hk ▸ exactMatch_eq_false_iff.mp he)
      refine .inr ⟨rfl, he', ?_⟩
      rw [hkind r he, hkind r' he'] at hk
      have hd : r.endsWithDot = r'.endsWithDot := by
        revert hk
        cases r.endsWithDot <;> cases r'.endsWithDot <;> simp
      rw [name_eq h.ne_nil, name_eq h'.ne_nil, hp, hd]
  · rintro (⟨he, he', hn⟩ | ⟨he, he', hn⟩)
    · refine ⟨(hexact r he).trans (hexact r' he').symm, ?_⟩
      rw [← ruleSegments_of_ok h, ← ruleSegments_of_ok h', ruleSegments, ruleSegments, hn]
    · have hparts : r.parts = r'.parts := by
        rw [PropertyInfoEntry.parts, PropertyInfoEntry.parts, hn]
      have hd : r.endsWithDot = r'.endsWithDot := by
        rw [PropertyInfoEntry.endsWithDot, PropertyInfoEntry.endsWithDot, hn]
      rw [hkind r he, hkind r' he', hd]
      exact ⟨rfl, hparts⟩

/-- **The rule lists without a fault** are those the builder accepts. -/
theorem rulesOk_iff :
    RulesOk rules ↔ (∀ r ∈ rules, RuleChecked r) ∧ (rules.map slot).Nodup := by
  have hpair : (∀ r ∈ rules, RuleChecked r) → ((rules.map slot).Nodup ↔
      rules.Pairwise (fun r r' => r.exactMatch = true → r'.exactMatch = true →
        dropTrailingDot r.name.bytes ≠ dropTrailingDot r'.name.bytes) ∧
      rules.Pairwise fun r r' => r.exactMatch = false → r'.exactMatch = false →
        r.name.bytes ≠ r'.name.bytes) := by
    intro hchk
    rw [List.Nodup, List.pairwise_map, ← List.pairwise_and_iff]
    refine List.Pairwise.iff_of_mem fun {r r'} hr hr' => ?_
    rw [ne_eq, slot_eq_iff (hchk r hr).ruleOk (hchk r' hr').ruleOk]
    tauto
  constructor
  · intro h
    have hchk : ∀ r ∈ rules, RuleChecked r := fun r hr =>
      ruleChecked_iff.mpr ⟨h.nul r hr, h.segments r hr⟩
    exact ⟨hchk, (hpair hchk).mpr ⟨h.exactNames, h.prefixNames⟩⟩
  · rintro ⟨hchk, hnd⟩
    obtain ⟨hexact, hprefix⟩ := (hpair hchk).mp hnd
    exact ⟨fun r hr => (ruleChecked_iff.mp (hchk r hr)).1,
      fun r hr => (ruleChecked_iff.mp (hchk r hr)).2, hexact, hprefix⟩

/-! ### The string tables of a list of rules -/

/-- The tables hold the defaults and the strings of the rules. -/
theorem mem_tables_addRules {more : List PropertyInfoEntry}
    (h : addRules more builder = .ok builder') :
    (∀ s, s ∈ builder'.contexts ↔ s ∈ builder.contexts ∨ ∃ r ∈ more, s = r.context.bytes) ∧
      ∀ s, s ∈ builder'.types ↔ s ∈ builder.types ∨ ∃ r ∈ more, s = r.typeStr.bytes := by
  induction more generalizing builder with
  | nil =>
    cases h
    simp
  | cons rule more ih =>
    obtain ⟨b1, h1, h⟩ := except_bind_eq_ok.mp h
    obtain ⟨-, hc, ht, -⟩ := addToTrie_eq_ok h1
    obtain ⟨ihc, iht⟩ := ih h
    refine ⟨fun s => ?_, fun s => ?_⟩
    · rw [ihc, hc, mem_intern]
      simp only [List.mem_cons, exists_eq_or_imp]
      tauto
    · rw [iht, ht, mem_intern]
      simp only [List.mem_cons, exists_eq_or_imp]
      tauto

end RsProperties.InfoTrie
