import RsProperties.InfoTrie.Descend

/-!
# What the rules put where

A rule lives at one level of the trie: a rule that ends in a dot at the path of all its segments, every other
rule at the path of all but the last. `Built` describes the trie of a list of rules in these terms: a path
is a node exactly when some rule passes through it, and the contents of a node are the rules that live there.
-/

namespace RsProperties

open ByteMem

/-- How a rule matches: the whole name, a string prefix, or everything behind a dot. -/
inductive RuleKind
  | exactMatch
  | plain
  | dotted
  deriving DecidableEq, Repr

namespace PropertyInfoEntry

variable (rule : PropertyInfoEntry)

/-- The segments of a rule's name, without the empty one behind a trailing dot. -/
def parts : List Bytes := (nameParts rule.name.bytes).1

def endsWithDot : Bool := (nameParts rule.name.bytes).2

def kind : RuleKind :=
  if rule.exactMatch then .exactMatch else if rule.endsWithDot then .dotted else .plain

/-- The path of the node a rule lives at. -/
def levelPath : List Bytes := if rule.kind = .dotted then rule.parts else rule.parts.dropLast

def lastName : Bytes := rule.parts.getLast?.getD []

/-- The rule as an entry of its level. -/
def entry : PropertyEntryBuilder where
  name := rule.lastName
  context := some rule.context.bytes
  rtype := some rule.typeStr.bytes

end PropertyInfoEntry

namespace InfoTrie

open TrieBuilderNode StateExcept PropertyInfoEntry

/-! ### The trie of a list of rules -/

/-- Some rule passes through the path. -/
def Visited (rules : List PropertyInfoEntry) (path : List Bytes) : Prop :=
  path = [] ∨ ∃ r ∈ rules, path <+: r.levelPath

instance (rules : List PropertyInfoEntry) (path : List Bytes) : Decidable (Visited rules path) :=
  inferInstanceAs (Decidable (_ ∨ _))

/-- The rules of a kind that live at a path. -/
def rulesAt (rules : List PropertyInfoEntry) (kind : RuleKind) (path : List Bytes) :
    List PropertyInfoEntry :=
  rules.filter fun r => decide (r.kind = kind ∧ r.levelPath = path)

/-- The trailing-dot rule of a level. -/
def dotRule (rules : List PropertyInfoEntry) (path : List Bytes) : Option PropertyInfoEntry :=
  (rulesAt rules .dotted path).head?

/-- The entry of a node: the defaults at the root, the trailing-dot rule elsewhere. -/
def levelEntry (rules : List PropertyInfoEntry) (defaultContext defaultType : Bytes)
    (path : List Bytes) : PropertyEntryBuilder :=
  if path = [] then ⟨ascii "root", some defaultContext, some defaultType⟩
  else
    { name := path.getLast?.getD []
      context := (dotRule rules path).map fun r => r.context.bytes
      rtype := (dotRule rules path).map fun r => r.typeStr.bytes }

/-- The contents of a level. -/
def levelOf (rules : List PropertyInfoEntry) (defaultContext defaultType : Bytes)
    (path : List Bytes) : Level where
  entry := levelEntry rules defaultContext defaultType path
  prefixes := (rulesAt rules .plain path).map entry
  exactMatches := (rulesAt rules .exactMatch path).map entry

/-- A rule the builder accepts: its segments are names, and its strings can be stored. -/
structure RuleOk (rule : PropertyInfoEntry) : Prop where
  parts : ∀ p ∈ rule.parts, SegName p
  ne_nil : rule.parts ≠ []

/-- What the builder holds after the given rules. -/
structure Built (rules : List PropertyInfoEntry) (defaultContext defaultType : Bytes)
    (builder : TrieBuilder) : Prop where
  flat : ∀ path, flat builder.root path =
    if Visited rules path then some (levelOf rules defaultContext defaultType path) else none
  keys : KeysOk builder.root
  contexts : TableOk builder.contexts
  types : TableOk builder.types
  ruleOk : ∀ r ∈ rules, RuleOk r
  distinct : (rules.map fun r => (r.kind, r.parts)).Nodup

/-! ### The string tables -/

/-- `intern` inserts into the set. -/
theorem mem_intern {s x : Bytes} {l : List Bytes} : x ∈ intern s l ↔ x = s ∨ x ∈ l := by
  induction l with
  | nil => simp [intern]
  | cons y l ih =>
    rw [intern]
    cases hc : compare s y with
    | lt => simp
    | eq =>
      have : s = y := Std.LawfulEqCmp.eq_of_compare hc
      simp [this]
    | gt =>
      simp only [List.mem_cons, ih]
      tauto

theorem pairwise_intern {s : Bytes} {l : List Bytes}
    (h : l.Pairwise fun a b => compare a b = .lt) :
    (intern s l).Pairwise fun a b => compare a b = .lt := by
  induction l with
  | nil => simp [intern]
  | cons y l ih =>
    rw [List.pairwise_cons] at h
    rw [intern]
    cases hc : compare s y with
    | lt =>
      refine List.pairwise_cons.mpr ⟨fun z hz => ?_, List.pairwise_cons.mpr h⟩
      rcases List.mem_cons.mp hz with rfl | hz
      · exact hc
      · exact Std.TransCmp.lt_trans hc (h.1 z hz)
    | eq => exact List.pairwise_cons.mpr h
    | gt =>
      refine List.pairwise_cons.mpr ⟨fun z hz => ?_, ih h.2⟩
      rcases mem_intern.mp hz with rfl | hz
      · exact Std.OrientedCmp.lt_of_gt hc
      · exact h.1 z hz

theorem tableOk_intern {s : Bytes} {l : List Bytes} (h : TableOk l) (hs : Text s) :
    TableOk (intern s l) := by
  refine ⟨pairwise_intern h.sorted, fun x hx => ?_⟩
  rcases mem_intern.mp hx with rfl | hx
  · exact hs
  · exact h.text x hx

/-! ### One rule -/

/-- The work of a rule at its level. -/
def ruleStep (rule : PropertyInfoEntry) (node : TrieBuilderNode) : Except Error TrieBuilderNode :=
  match rule.kind with
  | .exactMatch =>
    node.addExactMatchContext rule.lastName rule.context.bytes rule.typeStr.bytes rule.name.bytes
  | .plain =>
    node.addPrefixContext rule.lastName rule.context.bytes rule.typeStr.bytes rule.name.bytes
  | .dotted => node.setRule rule.context.bytes rule.typeStr.bytes rule.name.bytes

/-- The same work on the contents of the level; the slot of the rule has to be free. -/
def RuleRel (rule : PropertyInfoEntry) (l l' : Level) : Prop :=
  match rule.kind with
  | .exactMatch => (∀ e ∈ l.exactMatches, e.name ≠ rule.lastName) ∧
      l' = { l with exactMatches := l.exactMatches ++ [rule.entry] }
  | .plain => (∀ e ∈ l.prefixes, e.name ≠ rule.lastName) ∧
      l' = { l with prefixes := l.prefixes ++ [rule.entry] }
  | .dotted => l.entry.context = none ∧
      l' = { l with entry := ⟨l.entry.name, some rule.context.bytes, some rule.typeStr.bytes⟩ }

theorem localStep_ruleStep (rule : PropertyInfoEntry) :
    LocalStep (ruleStep rule) (RuleRel rule) := by
  have key : ∀ {n n'}, ruleStep rule n = .ok n' →
      n'.children = n.children ∧ n'.key = n.key ∧ RuleRel rule (level n) (level n') := by
    intro n n' h
    unfold ruleStep at h
    unfold RuleRel
    cases hk : rule.kind with
    | exactMatch =>
      simp only [hk, addExactMatchContext] at h
      split_ifs at h with ha
      cases h
      exact ⟨rfl, rfl, by simpa [level] using ha, rfl⟩
    | plain =>
      simp only [hk, addPrefixContext] at h
      split_ifs at h with ha
      cases h
      exact ⟨rfl, rfl, by simpa [level] using ha, rfl⟩
    | dotted =>
      simp only [hk, setRule] at h
      split_ifs at h with ha
      cases h
      have ha : n.propertyEntry.context = none ∧ n.propertyEntry.rtype = none := by
        simpa using ha
      exact ⟨rfl, rfl, ha.1, rfl⟩
  exact ⟨fun h => (key h).1, fun h => (key h).2.1, fun h => (key h).2.2⟩

/-- What `add_to_trie` checks of a rule by itself. -/
structure RuleChecked (rule : PropertyInfoEntry) : Prop where
  name : 0 ∉ rule.name.bytes
  context : 0 ∉ rule.context.bytes
  type : 0 ∉ rule.typeStr.bytes
  length : rule.parts.length ≤ maxNameSegments
  segments : ∀ p ∈ rule.parts, p ≠ []
  ne_nil : rule.parts ≠ []

/-- What `add_to_trie` does with a rule that passes its checks: work at the level of the rule. -/
theorem addToTrie_of_checked {rule : PropertyInfoEntry} (h : RuleChecked rule)
    (builder : TrieBuilder) :
    builder.addToTrie rule.name.bytes rule.context.bytes rule.typeStr.bytes rule.exactMatch =
      (descend (ruleStep rule) rule.levelPath builder.root >>= fun root =>
        .ok ⟨root, intern rule.context.bytes builder.contexts,
          intern rule.typeStr.bytes builder.types⟩) := by
  unfold TrieBuilder.addToTrie
  rw [except_bind_ok (validateNoInteriorNul_eq_ok.mpr h.name),
    except_bind_ok (validateNoInteriorNul_eq_ok.mpr h.context),
    except_bind_ok (validateNoInteriorNul_eq_ok.mpr h.type)]
  obtain ⟨⟨parts, endsWithDot⟩, hp⟩ : ∃ p, nameParts rule.name.bytes = p := ⟨_, rfl⟩
  have hparts : rule.parts = parts := by rw [PropertyInfoEntry.parts, hp]
  have hdot : rule.endsWithDot = endsWithDot := by rw [PropertyInfoEntry.endsWithDot, hp]
  have hlen := h.length
  have hseg := h.segments
  have hnil := h.ne_nil
  rw [hparts] at hlen hseg hnil
  have hempty : ¬ parts.any (fun p => p.isEmpty) = true := fun hany => by
    obtain ⟨p, hp, he⟩ := List.any_eq_true.mp hany
    exact hseg p hp (List.isEmpty_iff.mp he)
  have hlast := List.getLast?_eq_some_getLast hnil
  generalize parts.getLast hnil = lastName at hlast
  have hname : rule.lastName = lastName := by rw [PropertyInfoEntry.lastName, hparts, hlast]; rfl
  rw [hp]
  dsimp only
  rw [if_neg (by omega), if_neg hempty, hlast]
  dsimp only
  rw [PropertyInfoEntry.levelPath, hparts]
  -- the branches of the source, by the kind of the rule
  cases he : rule.exactMatch with
  | true =>
    have hk : rule.kind = .exactMatch := by simp [PropertyInfoEntry.kind, he]
    have hstep : ruleStep rule = fun node => node.addExactMatchContext lastName
        rule.context.bytes rule.typeStr.bytes rule.name.bytes := by
      funext node
      rw [ruleStep, hk, hname]
    have hpath : (if rule.kind = .dotted then parts else parts.dropLast) = parts.dropLast :=
      if_neg (by rw [hk]; decide)
    rw [hpath, hstep, if_pos rfl]
    rfl
  | false =>
    cases hd : endsWithDot with
    | true =>
      have hk : rule.kind = .dotted := by simp [PropertyInfoEntry.kind, he, hdot, hd]
      have hstep : ruleStep rule = fun node =>
          node.setRule rule.context.bytes rule.typeStr.bytes rule.name.bytes := by
        funext node
        rw [ruleStep, hk]
      have hparts' : parts = parts.dropLast ++ [lastName] :=
        (List.dropLast_append_getLast? lastName hlast).symm
      have hdesc : descend (ruleStep rule) parts =
          descend (updateChild lastName (ruleStep rule)) parts.dropLast := by
        rw [descend_snoc, ← hparts']
      rw [if_pos hk, hdesc, hstep, if_neg (by decide), if_neg (by decide)]
      rfl
    | false =>
      have hk : rule.kind = .plain := by simp [PropertyInfoEntry.kind, he, hdot, hd]
      have hstep : ruleStep rule = fun node => node.addPrefixContext lastName
          rule.context.bytes rule.typeStr.bytes rule.name.bytes := by
        funext node
        rw [ruleStep, hk, hname]
      have hpath : (if rule.kind = .dotted then parts else parts.dropLast) = parts.dropLast :=
        if_neg (by rw [hk]; decide)
      rw [hpath, hstep, if_neg (by decide), if_pos (by decide)]
      rfl

/-- The errors that reject a rule by itself. -/
def Error.isRuleCheck : Error → Bool
  | .invalidArgument _ => true
  | .parse _ => true
  | _ => false

/-- A rule that fails its checks is rejected. -/
theorem addToTrie_of_not_checked {rule : PropertyInfoEntry} (h : ¬ RuleChecked rule)
    (builder : TrieBuilder) : ∃ e : Error, Error.isRuleCheck e = true ∧
      builder.addToTrie rule.name.bytes rule.context.bytes rule.typeStr.bytes rule.exactMatch =
        .error e := by
  have hnul : ∀ kind s, 0 ∈ s → ∃ e : Error, Error.isRuleCheck e = true ∧
      validateNoInteriorNul kind s = .error e := fun kind s hs =>
    ⟨_, rfl, if_pos (List.contains_iff_mem.mpr hs)⟩
  unfold TrieBuilder.addToTrie
  by_cases h1 : 0 ∈ rule.name.bytes
  · obtain ⟨e, he, hr⟩ := hnul "property name" _ h1
    exact ⟨e, he, except_bind_error hr⟩
  rw [except_bind_ok (validateNoInteriorNul_eq_ok.mpr h1)]
  by_cases h2 : 0 ∈ rule.context.bytes
  · obtain ⟨e, he, hr⟩ := hnul "context" _ h2
    exact ⟨e, he, except_bind_error hr⟩
  rw [except_bind_ok (validateNoInteriorNul_eq_ok.mpr h2)]
  by_cases h3 : 0 ∈ rule.typeStr.bytes
  · obtain ⟨e, he, hr⟩ := hnul "type" _ h3
    exact ⟨e, he, except_bind_error hr⟩
  rw [except_bind_ok (validateNoInteriorNul_eq_ok.mpr h3)]
  obtain ⟨⟨parts, endsWithDot⟩, hp⟩ : ∃ p, nameParts rule.name.bytes = p := ⟨_, rfl⟩
  have hparts : rule.parts = parts := by rw [PropertyInfoEntry.parts, hp]
  rw [hp]
  dsimp only
  by_cases hlen : maxNameSegments < parts.length
  · rw [if_pos hlen]
    exact ⟨_, rfl, rfl⟩
  rw [if_neg hlen]
  by_cases hempty : parts.any (fun p => p.isEmpty) = true
  · rw [if_pos hempty]
    exact ⟨_, rfl, rfl⟩
  rw [if_neg hempty]
  cases hlast : parts.getLast? with
  | none => exact ⟨_, rfl, rfl⟩
  | some lastName =>
    refine absurd ⟨h1, h2, h3, ?_, ?_, ?_⟩ h
    · rw [hparts]
      omega
    · rw [hparts]
      exact fun p hp hnil => hempty (List.any_eq_true.mpr ⟨p, hp, by simp [hnil]⟩)
    · rw [hparts]
      rintro rfl
      cases hlast

/-- What `add_to_trie` has checked when it succeeds, and what it has done. -/
theorem addToTrie_eq_ok {builder builder' : TrieBuilder} {rule : PropertyInfoEntry}
    (h : builder.addToTrie rule.name.bytes rule.context.bytes rule.typeStr.bytes rule.exactMatch =
      .ok builder') :
    RuleChecked rule ∧ builder'.contexts = intern rule.context.bytes builder.contexts ∧
      builder'.types = intern rule.typeStr.bytes builder.types ∧
      descend (ruleStep rule) rule.levelPath builder.root = .ok builder'.root := by
  by_cases hc : RuleChecked rule
  · rw [addToTrie_of_checked hc] at h
    obtain ⟨root, hroot, h⟩ := except_bind_eq_ok.mp h
    cases h
    exact ⟨hc, rfl, rfl, hroot⟩
  · obtain ⟨e, -, he⟩ := addToTrie_of_not_checked hc builder
    rw [he] at h
    cases h

theorem mem_parts {rule : PropertyInfoEntry} {p : Bytes} (h : p ∈ rule.parts) :
    p ∈ splitDot rule.name.bytes := by
  unfold PropertyInfoEntry.parts nameParts at h
  dsimp only at h
  split_ifs at h
  · exact List.dropLast_subset _ h
  · exact h

/-- The segments of an accepted rule are names. -/
theorem segName_of_mem_parts {rule : PropertyInfoEntry} (h0 : 0 ∉ rule.name.bytes)
    (hne : ∀ p ∈ rule.parts, p ≠ []) {p : Bytes} (hp : p ∈ rule.parts) : SegName p := by
  have hm := mem_parts hp
  refine ⟨⟨fun h => h0 ((mem_of_mem_splitDot hm).1 0 h), ?_⟩, hne p hp⟩
  exact valid_of_mem_splitDot rule.name.valid hm

theorem RuleChecked.ruleOk {rule : PropertyInfoEntry} (h : RuleChecked rule) : RuleOk rule :=
  ⟨fun _ hp => segName_of_mem_parts h.name h.segments hp, h.ne_nil⟩

/-! ### The levels after one more rule -/

theorem visited_append {rules : List PropertyInfoEntry} {rule : PropertyInfoEntry}
    {path : List Bytes} :
    Visited (rules ++ [rule]) path ↔ Visited rules path ∨ path <+: rule.levelPath := by
  simp only [Visited, List.mem_append, List.mem_singleton]
  constructor
  · rintro (h | ⟨r, hr | rfl, hp⟩)
    · exact .inl (.inl h)
    · exact .inl (.inr ⟨r, hr, hp⟩)
    · exact .inr hp
  · rintro ((h | ⟨r, hr, hp⟩) | hp)
    · exact .inl h
    · exact .inr ⟨r, .inl hr, hp⟩
    · exact .inr ⟨rule, .inr rfl, hp⟩

theorem rulesAt_append (rules : List PropertyInfoEntry) (rule : PropertyInfoEntry)
    (kind : RuleKind) (path : List Bytes) :
    rulesAt (rules ++ [rule]) kind path =
      rulesAt rules kind path ++ if rule.kind = kind ∧ rule.levelPath = path then [rule] else [] := by
  unfold rulesAt
  rw [List.filter_append, List.filter_singleton]
  by_cases h : rule.kind = kind ∧ rule.levelPath = path
  · rw [if_pos h, decide_eq_true h, cond_true]
  · rw [if_neg h, decide_eq_false h, cond_false]

theorem rulesAt_of_not_visited {rules : List PropertyInfoEntry} {path : List Bytes}
    (h : ¬ Visited rules path) (kind : RuleKind) : rulesAt rules kind path = [] := by
  refine List.filter_eq_nil_iff.mpr fun r hr hk => h (.inr ⟨r, hr, ?_⟩)
  have hk : r.kind = kind ∧ r.levelPath = path := by simpa using hk
  rw [hk.2]

section Levels

variable {rules : List PropertyInfoEntry} {defaultContext defaultType : Bytes}
  {rule : PropertyInfoEntry} {path : List Bytes}

/-- Where no rule passes, a level would be empty. -/
theorem levelOf_of_not_visited (h : ¬ Visited rules path) :
    levelOf rules defaultContext defaultType path = freshLevel path := by
  have hne : path ≠ [] := fun e => h (.inl e)
  simp [levelOf, levelEntry, hne, dotRule, rulesAt_of_not_visited h, freshLevel, level, new]

/-- A rule leaves the other levels alone. -/
theorem levelOf_append_of_ne (h : rule.levelPath ≠ path) :
    levelOf (rules ++ [rule]) defaultContext defaultType path =
      levelOf rules defaultContext defaultType path := by
  simp [levelOf, levelEntry, dotRule, rulesAt_append, h]

/-- A rule fills its slot of its level. -/
theorem levelOf_append_of_rel {l : Level} (hok : RuleOk rule)
    (h : RuleRel rule (levelOf rules defaultContext defaultType rule.levelPath) l) :
    l = levelOf (rules ++ [rule]) defaultContext defaultType rule.levelPath := by
  unfold RuleRel at h
  cases hk : rule.kind with
  | exactMatch =>
    simp only [hk] at h
    rw [h.2]
    simp [levelOf, levelEntry, dotRule, rulesAt_append, hk]
  | plain =>
    simp only [hk] at h
    rw [h.2]
    simp [levelOf, levelEntry, dotRule, rulesAt_append, hk]
  | dotted =>
    simp only [hk] at h
    obtain ⟨hfree, rfl⟩ := h
    have hne : rule.levelPath ≠ [] := by
      rw [PropertyInfoEntry.levelPath, hk]
      exact hok.ne_nil
    have hnone : rulesAt rules .dotted rule.levelPath = [] := by
      simpa [levelOf, levelEntry, hne, dotRule] using hfree
    simp [levelOf, levelEntry, hne, dotRule, rulesAt_append, hk, hnone]

/-- The slot a rule takes was free. -/
theorem distinct_of_rel {l : Level} (hok : RuleOk rule)
    (h : RuleRel rule (levelOf rules defaultContext defaultType rule.levelPath) l) :
    ∀ r ∈ rules, r.kind = rule.kind → r.parts ≠ rule.parts := by
  intro r hr hkind hparts
  have hpath : r.levelPath = rule.levelPath := by
    rw [PropertyInfoEntry.levelPath, PropertyInfoEntry.levelPath, hkind, hparts]
  have hname : r.lastName = rule.lastName := by
    rw [PropertyInfoEntry.lastName, PropertyInfoEntry.lastName, hparts]
  have hmem : r ∈ rulesAt rules rule.kind rule.levelPath :=
    List.mem_filter.mpr ⟨hr, by simp [hkind, hpath]⟩
  unfold RuleRel at h
  cases hk : rule.kind with
  | exactMatch =>
    simp only [hk] at h hmem
    exact h.1 r.entry (List.mem_map_of_mem hmem) hname
  | plain =>
    simp only [hk] at h hmem
    exact h.1 r.entry (List.mem_map_of_mem hmem) hname
  | dotted =>
    simp only [hk] at h hmem
    have hne : rule.levelPath ≠ [] := by
      rw [PropertyInfoEntry.levelPath, hk]
      exact hok.ne_nil
    have hnone : rulesAt rules .dotted rule.levelPath = [] := by
      simpa [levelOf, levelEntry, hne, dotRule] using h.1
    rw [hnone] at hmem
    cases hmem

end Levels

/-! ### The build -/

section Build

variable {defaultContext defaultType : Bytes}

theorem built_new (hc : Text defaultContext) (ht : Text defaultType) :
    Built [] defaultContext defaultType (TrieBuilder.new defaultContext defaultType) := by
  refine ⟨fun path => ?_, ?_, ?_, ?_, by simp, by simp⟩
  · cases path with
    | nil => rfl
    | cons seg path =>
      rw [if_neg (by simp [Visited])]
      rfl
  · refine keysOk_of_children ⟨by simp [TrieBuilder.new, TrieBuilderNode.new],
      by simp [TrieBuilder.new, TrieBuilderNode.new]⟩ fun seg c hc => ?_
    cases hc
  · exact ⟨by simp [TrieBuilder.new], by simpa [TrieBuilder.new] using hc⟩
  · exact ⟨by simp [TrieBuilder.new], by simpa [TrieBuilder.new] using ht⟩

/-- Whether a level exists already or is created now, it starts from the rules so far. -/
theorem Built.getD_flat {rules : List PropertyInfoEntry} {builder : TrieBuilder}
    (hb : Built rules defaultContext defaultType builder) (path : List Bytes) :
    (InfoTrie.flat builder.root path).getD (freshLevel path) =
      levelOf rules defaultContext defaultType path := by
  rw [hb.flat]
  split_ifs with hv
  · rfl
  · exact (levelOf_of_not_visited hv).symm

/-- A node stands at a path of the rules, with the contents of that level. -/
theorem Built.node {rules : List PropertyInfoEntry} {builder : TrieBuilder}
    (hb : Built rules defaultContext defaultType builder) {path : List Bytes}
    {node : TrieBuilderNode} (hn : get? path builder.root = some node) :
    Visited rules path ∧ level node = levelOf rules defaultContext defaultType path := by
  have hflat : InfoTrie.flat builder.root path = some (level node) := by
    rw [InfoTrie.flat, hn]
    rfl
  rw [hb.flat] at hflat
  split_ifs at hflat with hv
  exact ⟨hv, (Option.some.inj hflat).symm⟩

/-- One more rule. -/
theorem Built.addToTrie {rules : List PropertyInfoEntry} {builder builder' : TrieBuilder}
    {rule : PropertyInfoEntry} (hb : Built rules defaultContext defaultType builder)
    (h : builder.addToTrie rule.name.bytes rule.context.bytes rule.typeStr.bytes rule.exactMatch =
      .ok builder') :
    Built (rules ++ [rule]) defaultContext defaultType builder' := by
  obtain ⟨hchk, hctx, htyp, hroot⟩ := addToTrie_eq_ok h
  have hok := hchk.ruleOk
  have hpath : ∀ p ∈ rule.levelPath, SegName p := by
    intro p hp
    unfold PropertyInfoEntry.levelPath at hp
    split_ifs at hp
    · exact hok.parts p hp
    · exact hok.parts p (List.dropLast_subset _ hp)
  have hlocal := localStep_ruleStep rule
  obtain ⟨⟨l, hl, hrel⟩, hother⟩ := flat_descend hlocal hroot
  have hgetD := hb.getD_flat
  rw [hgetD] at hrel
  refine ⟨fun path => ?_, keysOk_descend hlocal hpath hb.keys hroot, ?_, ?_, ?_, ?_⟩
  · by_cases hp : path = rule.levelPath
    · subst hp
      rw [hl, if_pos (visited_append.mpr (.inr List.prefix_rfl)), levelOf_append_of_rel hok hrel]
    · rw [hother path hp, levelOf_append_of_ne (Ne.symm hp)]
      by_cases hpre : path <+: rule.levelPath
      · rw [if_pos hpre, if_pos (visited_append.mpr (.inr hpre)), hgetD]
      · rw [if_neg hpre, hb.flat]
        simp only [visited_append, hpre, or_false]
  · rw [hctx]
    exact tableOk_intern hb.contexts ⟨hchk.context, rule.context.valid⟩
  · rw [htyp]
    exact tableOk_intern hb.types ⟨hchk.type, rule.typeStr.valid⟩
  · intro r hr
    rcases List.mem_append.mp hr with hr | hr
    · exact hb.ruleOk r hr
    · exact (List.mem_singleton.mp hr) ▸ hok
  · rw [List.map_append, List.nodup_append]
    refine ⟨hb.distinct, by simp, fun a ha b hb' hab => ?_⟩
    obtain ⟨r, hr, rfl⟩ := List.mem_map.mp ha
    obtain rfl : b = (rule.kind, rule.parts) := by simpa using hb'
    obtain ⟨hk, hp⟩ := Prod.mk.inj hab
    exact distinct_of_rel hok hrel r hr hk hp

/-- **The trie of a list of rules.** -/
theorem built_addRules {rules : List PropertyInfoEntry} {builder builder' : TrieBuilder}
    (hb : Built rules defaultContext defaultType builder) {more : List PropertyInfoEntry}
    (h : addRules more builder = .ok builder') :
    Built (rules ++ more) defaultContext defaultType builder' := by
  induction more generalizing rules builder with
  | nil =>
    cases h
    simpa using hb
  | cons rule more ih =>
    obtain ⟨b1, h1, h⟩ := except_bind_eq_ok.mp h
    have := ih (hb.addToTrie h1) h
    rwa [List.append_assoc, List.singleton_append] at this

end Build

end InfoTrie

end RsProperties
