import RsProperties.PropFiles.ContextRules
import RsProperties.InfoTrie.LongestMatch

/-!
# What a property-contexts file says

The grammar of the rule files, apart from the parser: a line is a rule when its words are a name, a context
and, if more follow, a way to match and a type (`RuleWords`). The parser keeps exactly the rules
(`parseFromLine_eq_ok`, `mem_parseLines`); every other line is skipped.

`Routes` is the meaning of a set of rules: an exact rule of the name decides, else the longest prefix
rule, else the default. On a list of rules that `build_trie` accepts, it picks one context for every name
(`routes_iff`).
-/

namespace RsProperties

open ByteMem InfoTrie

namespace PropertyInfoEntry

/-! ### Lines -/

/-- The words of a type: none, a known one, or `enum` with its values. -/
inductive TypeWords : List Str → Prop
  | missing : TypeWords []
  | plain {t : Str} (h : t.bytes ∈ noParameterTypes) : TypeWords [t]
  | enum {t v : Str} {values : List Str} (h : t.bytes = ascii "enum") : TypeWords (t :: v :: values)

/-- The words of a rule. Only the word `exact` makes it an exact one. -/
inductive RuleWords : List Str → PropertyInfoEntry → Prop
  | legacy {name context : Str} : RuleWords [name, context] ⟨name, context, ⟨[], rfl⟩, false⟩
  | typed {name context op : Str} {types : List Str} (h : TypeWords types) :
      RuleWords (name :: context :: op :: types)
        ⟨name, context, Str.joinSpace types, decide (op.bytes = ascii "exact")⟩

/-- The line is a rule: it is short enough, it is text, and it is neither blank nor a comment. -/
def IsRule (line : BoundedLine) (r : PropertyInfoEntry) : Prop :=
  line.truncated = false ∧ ∃ text, fromUtf8 line.buf = some text ∧ text.trim.bytes ≠ [] ∧
    text.trim.bytes.head? ≠ some hash ∧ RuleWords text.trim.splitWhitespace r

theorem typeWords_iff {types : List Str} :
    TypeWords types ↔ types = [] ∨ isTypeValid types = true := by
  constructor
  · intro h
    cases h with
    | missing => exact .inl rfl
    | @plain t h =>
      refine .inr ?_
      have hne : t.bytes ≠ ascii "enum" := by
        rintro he
        rw [he] at h
        exact absurd h (by decide)
      rw [isTypeValid, if_neg hne]
      simpa using h
    | enum h =>
      refine .inr ?_
      rw [isTypeValid, if_pos h]
      rfl
  · rintro (rfl | h)
    · exact .missing
    · cases types with
      | nil => exact .missing
      | cons t rest =>
        rw [isTypeValid] at h
        split_ifs at h with he hrest
        · cases rest with
          | nil => cases h
          | cons v values => exact .enum he
        · cases rest with
          | nil => exact .plain (by simpa using h)
          | cons v values => exact absurd rfl hrest

theorem ofTokens_eq_ok {property context : Str} {exact : Bool} {types : List Str}
    {r : PropertyInfoEntry} : ofTokens property context exact types = .ok r ↔
      TypeWords types ∧ r = ⟨property, context, Str.joinSpace types, exact⟩ := by
  rw [ofTokens, typeWords_iff]
  have hentry : (.ok ⟨property, context, Str.joinSpace types, exact⟩ : Except Error _) = .ok r ↔
      r = ⟨property, context, Str.joinSpace types, exact⟩ := by
    rw [Except.ok.injEq, eq_comm]
  cases types with
  | nil => simpa using hentry
  | cons t rest =>
    cases hv : isTypeValid (t :: rest) with
    | true => simpa using hentry
    | false => simp

/-- **The parser of a line** accepts the rules, when it is not strict about the way to match. -/
theorem parseFromLine_eq_ok {line : Str} {r : PropertyInfoEntry} :
    parseFromLine line false = .ok r ↔ RuleWords line.splitWhitespace r := by
  rw [parseFromLine]
  generalize line.splitWhitespace = words
  rcases words with _ | ⟨name, _ | ⟨context, _ | ⟨op, types⟩⟩⟩
  · constructor <;> rintro ⟨⟩
  · constructor <;> rintro ⟨⟩
  · have hdefault : ofTokens name context false [] = .ok r ↔ RuleWords [name, context] r := by
      rw [ofTokens_eq_ok]
      constructor
      · rintro ⟨-, rfl⟩
        exact .legacy
      · rintro ⟨⟩
        exact ⟨.missing, rfl⟩
    simpa using hdefault
  · have htyped : ofTokens name context (decide (op.bytes = ascii "exact")) types = .ok r ↔
        RuleWords (name :: context :: op :: types) r := by
      rw [ofTokens_eq_ok]
      constructor
      · rintro ⟨ht, rfl⟩
        exact .typed ht
      · rintro ⟨⟩
        exact ⟨by assumption, rfl⟩
    simpa using htyped

/-- **The parser keeps the rules** of a file, and nothing else. -/
theorem mem_parseLines {filename : Bytes} {k : ℕ} {lines : List BoundedLine} {r : PropertyInfoEntry} :
    r ∈ (parseLines filename false k lines).1 ↔ ∃ line ∈ lines, IsRule line r := by
  induction lines generalizing k with
  | nil => simp [parseLines]
  | cons line lines ih =>
    simp only [List.exists_mem_cons_iff, ← @ih (k + 1)]
    rw [parseLines]
    dsimp only
    by_cases htrunc : line.truncated = true
    · rw [if_pos htrunc]
      simp [IsRule, htrunc]
    rw [if_neg htrunc]
    cases htext : fromUtf8 line.buf with
    | none => simp [IsRule, htext]
    | some text =>
      have hrule : IsRule line r ↔ text.trim.bytes ≠ [] ∧ text.trim.bytes.head? ≠ some hash ∧
          parseFromLine text.trim false = .ok r := by
        rw [parseFromLine_eq_ok, IsRule, htext]
        simp [htrunc]
      dsimp only
      by_cases hskip : (text.trim.bytes.isEmpty || decide (text.trim.bytes.head? = some hash)) = true
      · rw [if_pos hskip]
        have hno : ¬ IsRule line r := by
          rw [hrule]
          rintro ⟨h1, h2, -⟩
          simp [h1, h2] at hskip
        simp [hno]
      · rw [if_neg hskip]
        simp only [Bool.or_eq_true, List.isEmpty_iff, decide_eq_true_eq, not_or] at hskip
        rw [hrule]
        cases hparse : parseFromLine text.trim false with
        | ok entry => simp [hskip, eq_comm]
        | error e => cases e <;> simp

end PropertyInfoEntry

/-! ### The meaning of a set of rules -/

namespace InfoTrie

/-- The context a set of rules gives a name. -/
inductive Routes (rules : PropertyInfoEntry → Prop) (defaultContext : Bytes) (name : Bytes) : Bytes → Prop
  | exact {r : PropertyInfoEntry} (hr : rules r) (he : r.exactMatch = true)
      (hn : dropTrailingDot r.name.bytes = name) : Routes rules defaultContext name r.context.bytes
  | longest {r : PropertyInfoEntry} (hr : rules r) (he : r.exactMatch = false)
      (hn : r.name.bytes <+: name)
      (hexact : ∀ r', rules r' → r'.exactMatch = true → dropTrailingDot r'.name.bytes ≠ name)
      (hmax : ∀ r', rules r' → r'.exactMatch = false → r'.name.bytes <+: name →
        r'.name.bytes.length ≤ r.name.bytes.length) :
      Routes rules defaultContext name r.context.bytes
  | default (hexact : ∀ r, rules r → r.exactMatch = true → dropTrailingDot r.name.bytes ≠ name)
      (hnone : ∀ r, rules r → r.exactMatch = false → ¬ r.name.bytes <+: name) :
      Routes rules defaultContext name defaultContext

/-- The set of rules is all that matters. -/
theorem Routes.congr {rules rules' : PropertyInfoEntry → Prop} (h : ∀ r, rules r ↔ rules' r)
    {defaultContext name context : Bytes} :
    Routes rules defaultContext name context ↔ Routes rules' defaultContext name context := by
  have heq : rules = rules' := by
    funext r
    exact propext (h r)
  rw [heq]

section Lists

variable {rules : List PropertyInfoEntry} {defaultContext name : Bytes} {r r' : PropertyInfoEntry}

/-- Two exact rules of one name are the same rule. -/
theorem exact_unique (hok : ∀ r ∈ rules, RuleOk r)
    (hd : (rules.map fun r => (r.kind, r.parts)).Nodup) (hr : r ∈ rules) (hr' : r' ∈ rules)
    (he : r.exactMatch = true) (he' : r'.exactMatch = true)
    (hn : dropTrailingDot r.name.bytes = dropTrailingDot r'.name.bytes) : r = r' := by
  have hsplit : ∀ r ∈ rules, splitDot (joinDot r.parts) = r.parts := fun r hr =>
    splitDot_joinDot (hok r hr).ne_nil fun s hs => (mem_of_mem_splitDot (mem_parts hs)).2
  rw [dropTrailingDot_name (hok r hr), dropTrailingDot_name (hok r' hr')] at hn
  refine eq_of_slot hd hr hr' ?_ ?_
  · simp [PropertyInfoEntry.kind, he, he']
  · rw [← hsplit r hr, hn, hsplit r' hr']

/-- Two prefix rules with one name are the same rule. -/
theorem prefix_unique (hd : (rules.map fun r => (r.kind, r.parts)).Nodup) (hr : r ∈ rules)
    (hr' : r' ∈ rules) (he : r.exactMatch = false) (he' : r'.exactMatch = false)
    (hn : r.name.bytes = r'.name.bytes) : r = r' := by
  refine eq_of_slot hd hr hr' ?_ ?_
  · rw [PropertyInfoEntry.kind, PropertyInfoEntry.kind, PropertyInfoEntry.endsWithDot,
      PropertyInfoEntry.endsWithDot, he, he', hn]
  · rw [PropertyInfoEntry.parts, PropertyInfoEntry.parts, hn]

theorem exactRule_eq_none : exactRule rules name = none ↔
    ∀ r ∈ rules, r.exactMatch = true → dropTrailingDot r.name.bytes ≠ name := by
  simp [exactRule, List.find?_eq_none]

theorem prefixRule_eq_none : prefixRule rules name = none ↔
    ∀ r ∈ rules, r.exactMatch = false → ¬ r.name.bytes <+: name := by
  rw [prefixRule, longest, List.argmax_eq_none, List.filter_eq_nil_iff]
  simp

/-- The rule list routes every name to the context of `ruleContext`. -/
theorem routes_ruleContext (rules : List PropertyInfoEntry) (defaultContext name : Bytes) :
    Routes (· ∈ rules) defaultContext name (ruleContext rules defaultContext name) := by
  rw [ruleContext]
  cases hexact : exactRule rules name with
  | some r =>
    have hspec := List.find?_some hexact
    rw [decide_eq_true_eq] at hspec
    exact .exact (List.mem_of_find?_eq_some hexact) hspec.1 hspec.2
  | none =>
    have hno := exactRule_eq_none.mp hexact
    cases hnone : prefixRule rules name with
    | none => exact .default hno (prefixRule_eq_none.mp hnone)
    | some r =>
      rw [prefixRule, longest] at hnone
      have hmem := List.argmax_mem hnone
      rw [List.mem_filter, decide_eq_true_eq] at hmem
      refine .longest hmem.1 hmem.2.1 hmem.2.2 hno ?_
      intro r' hr' he' hn'
      have hmem' : r' ∈ rules.filter fun r => decide (r.exactMatch = false ∧ r.name.bytes <+: name) :=
        List.mem_filter.mpr ⟨hr', decide_eq_true ⟨he', hn'⟩⟩
      exact List.le_of_mem_argmax (f := fun r => r.name.bytes.length) hmem' hnone

/-- **One context for every name**, when no two rules are the same. -/
theorem routes_iff (hok : ∀ r ∈ rules, RuleOk r)
    (hd : (rules.map fun r => (r.kind, r.parts)).Nodup) {context : Bytes} :
    Routes (· ∈ rules) defaultContext name context ↔
      context = ruleContext rules defaultContext name := by
  constructor
  · have hall := routes_ruleContext rules defaultContext name
    generalize ruleContext rules defaultContext name = other at hall ⊢
    intro h
    cases h with
    | exact hr he hn =>
      cases hall with
      | exact hr' he' hn' => rw [exact_unique hok hd hr hr' he he' (hn.trans hn'.symm)]
      | longest _ _ _ hno => exact absurd hn (hno _ hr he)
      | default hno => exact absurd hn (hno _ hr he)
    | longest hr he hn hno hmax =>
      cases hall with
      | exact hr' he' hn' => exact absurd hn' (hno _ hr' he')
      | longest hr' he' hn' _ hmax' =>
        -- prefixes of one name with one length
        have hlen := le_antisymm (hmax' _ hr he hn) (hmax _ hr' he' hn')
        have hname := List.prefix_of_prefix_length_le hn hn' hlen.le
        rw [prefix_unique hd hr hr' he he' (hname.eq_of_length hlen)]
      | default _ hnp => exact absurd hn (hnp _ hr he)
    | default hno hnp =>
      cases hall with
      | exact hr' he' hn' => exact absurd hn' (hno _ hr' he')
      | longest hr' he' hn' => exact absurd hn' (hnp _ hr' he')
      | default => rfl
  · rintro rfl
    exact routes_ruleContext rules defaultContext name

end Lists

end InfoTrie

end RsProperties
