import RsProperties.PropFiles.Loader

/-!
# The expansion of import paths

`expand_import_path` reads a path once, from left to right: a `$$` is a literal dollar, a `${…}` is replaced,
any other `$` is an error. `Expands` and `Stops` say what the reading makes of a path, one token at a time;
`expandImportPath_eq_some` and `expandImportPath_eq_none` say that the loop of the source, with its cuts
around the next `$` and the next `}`, does exactly that. What holds of the expansion follows by induction on
the reading; in particular what was substituted is never read again.
-/

namespace RsProperties

open ByteMem

/-! ### References -/

/-- `:-`, which separates the default from the name. -/
def defaultMark : Bytes := [58, 45]

/-- `${r}`. -/
def reference (r : Bytes) : Bytes := dollar :: openBrace :: (r ++ [closeBrace])

/-- `${n:-d}`. -/
def referenceOr (n d : Bytes) : Bytes := reference (n ++ defaultMark ++ d)

/-- The stored value of a name, when there is one that is not empty. -/
def stored (properties : PropertyMap) (name : Bytes) : Option Bytes :=
  ((properties.get? name).map Str.bytes).filter fun v => !v.isEmpty

/-- What a reference without a closing brace stands for. -/
inductive Resolves (properties : PropertyMap) : Bytes → Bytes → Prop
  | value {n v : Bytes} (hn : ¬ defaultMark <:+: n) (hv : stored properties n = some v) :
      Resolves properties n v
  | valueOr {n d v : Bytes} (hn : ¬ defaultMark <:+: n) (hv : stored properties n = some v) :
      Resolves properties (n ++ defaultMark ++ d) v
  | default {n d : Bytes} (hn : ¬ defaultMark <:+: n) (hv : stored properties n = none) :
      Resolves properties (n ++ defaultMark ++ d) d

/-! ### Reading a path -/

/-- Reading the path to its end gives the expansion. -/
inductive Expands (properties : PropertyMap) : Bytes → Bytes → Prop
  | nil : Expands properties [] []
  | char {c : UInt8} {s x : Bytes} (hc : c ≠ dollar) (h : Expands properties s x) :
      Expands properties (c :: s) (c :: x)
  | escape {s x : Bytes} (h : Expands properties s x) :
      Expands properties (dollar :: dollar :: s) (dollar :: x)
  | reference {r v s x : Bytes} (hr : closeBrace ∉ r) (hv : Resolves properties r v)
      (h : Expands properties s x) : Expands properties (reference r ++ s) (v ++ x)

/-- Reading the path meets an error. -/
inductive Stops (properties : PropertyMap) : Bytes → Prop
  /-- A `$` followed by neither `$` nor `{`. -/
  | bare {s : Bytes} (h1 : s.head? ≠ some dollar) (h2 : s.head? ≠ some openBrace) :
      Stops properties (dollar :: s)
  /-- An unclosed `${`. -/
  | unclosed {s : Bytes} (h : closeBrace ∉ s) : Stops properties (dollar :: openBrace :: s)
  /-- A missing or empty property without a default. -/
  | missing {n s : Bytes} (hr : closeBrace ∉ n) (hn : ¬ defaultMark <:+: n)
      (hv : stored properties n = none) : Stops properties (reference n ++ s)
  | char {c : UInt8} {s : Bytes} (hc : c ≠ dollar) (h : Stops properties s) :
      Stops properties (c :: s)
  | escape {s : Bytes} (h : Stops properties s) : Stops properties (dollar :: dollar :: s)
  | reference {r v s : Bytes} (hr : closeBrace ∉ r) (hv : Resolves properties r v)
      (h : Stops properties s) : Stops properties (reference r ++ s)

section Reading

variable {properties : PropertyMap} {a b s x y : Bytes}

/-- Reading goes on behind what has been read. -/
theorem Expands.append (h : Expands properties a x) (hb : Expands properties b y) :
    Expands properties (a ++ b) (x ++ y) := by
  induction h with
  | nil => exact hb
  | char hc _ ih => exact .char hc ih
  | escape _ ih => exact .escape ih
  | reference hr hv _ ih =>
    rw [List.append_assoc, List.append_assoc]
    exact .reference hr hv ih

theorem Expands.append_stops (h : Expands properties a x) (hb : Stops properties b) :
    Stops properties (a ++ b) := by
  induction h with
  | nil => exact hb
  | char hc _ ih => exact .char hc ih
  | escape _ ih => exact .escape ih
  | reference hr hv _ ih =>
    rw [List.append_assoc]
    exact .reference hr hv ih

/-- Text without a `$` stands for itself. -/
theorem expands_of_notMem (h : dollar ∉ s) : Expands properties s s := by
  induction s with
  | nil => exact .nil
  | cons c s ih =>
    rw [List.mem_cons, not_or] at h
    exact .char (Ne.symm h.1) (ih h.2)

end Reading

/-! ### Cutting -/

theorem splitDefault_cons (c : UInt8) (s : Bytes) : splitDefault (c :: s) =
    if c = 58 ∧ s.head? = some 45 then some ([], s.tail)
    else (splitDefault s).map fun (a, b) => (c :: a, b) := by
  split_ifs with h
  · obtain ⟨rfl, hs⟩ := h
    obtain ⟨t, rfl⟩ := List.head?_eq_some_iff.mp hs
    rfl
  · rw [splitDefault.eq_2]
    rintro t rfl rfl
    exact h ⟨rfl, rfl⟩

theorem defaultMark_prefix {c : UInt8} {s : Bytes} :
    defaultMark <+: c :: s ↔ c = 58 ∧ s.head? = some 45 := by
  rw [defaultMark, List.cons_prefix_cons, eq_comm]
  refine and_congr_right fun _ => ?_
  cases s with
  | nil => simp
  | cons d s => simp [List.cons_prefix_cons, eq_comm]

theorem splitDefault_eq_none {s : Bytes} : splitDefault s = none ↔ ¬ defaultMark <:+: s := by
  induction s with
  | nil => simp [splitDefault, defaultMark]
  | cons c s ih =>
    rw [splitDefault_cons, List.infix_cons_iff, defaultMark_prefix, not_or]
    split_ifs with h
    · exact ⟨nofun, fun hn => absurd h hn.1⟩
    · rw [Option.map_eq_none_iff, ih]
      exact ⟨fun hn => ⟨h, hn⟩, fun hn => hn.2⟩

/-- The text is cut at its first `:-`. -/
theorem splitDefault_append {n : Bytes} (h : ¬ defaultMark <:+: n) (d : Bytes) :
    splitDefault (n ++ defaultMark ++ d) = some (n, d) := by
  induction n with
  | nil => rfl
  | cons c n ih =>
    rw [List.infix_cons_iff, not_or, defaultMark_prefix] at h
    have hc : ¬ (c = 58 ∧ (n ++ defaultMark ++ d).head? = some 45) := by
      rintro ⟨rfl, hd⟩
      cases n with
      | nil => simp [defaultMark] at hd
      | cons b n => exact h.1 ⟨rfl, hd⟩
    rw [List.cons_append, List.cons_append, splitDefault_cons, if_neg hc, ih h.2]
    rfl

theorem splitDefault_eq_some {s n d : Bytes} (h : splitDefault s = some (n, d)) :
    s = n ++ defaultMark ++ d ∧ ¬ defaultMark <:+: n := by
  induction s generalizing n with
  | nil => cases h
  | cons c s ih =>
    rw [splitDefault_cons] at h
    split_ifs at h with hc
    · obtain ⟨rfl, hs⟩ := hc
      obtain ⟨t, rfl⟩ := List.head?_eq_some_iff.mp hs
      cases h
      exact ⟨rfl, by simp [defaultMark]⟩
    · obtain ⟨⟨n', d'⟩, hsplit, heq⟩ := Option.map_eq_some_iff.mp h
      cases heq
      obtain ⟨rfl, hn⟩ := ih hsplit
      refine ⟨rfl, ?_⟩
      rw [List.infix_cons_iff, not_or, defaultMark_prefix]
      refine ⟨fun ⟨h58, h45⟩ => hc ⟨h58, ?_⟩, hn⟩
      cases n' with
      | nil => cases h45
      | cons b n' => exact h45

/-! ### The loop of the source -/

section Loop

variable {properties : PropertyMap}

theorem stored_eq_some {n v : Bytes} : stored properties n = some v ↔
    ∃ value, properties.get? n = some value ∧ value.bytes = v ∧ v ≠ [] := by
  simp only [stored, Option.filter_eq_some_iff, Option.map_eq_some_iff, Bool.not_eq_true',
    List.isEmpty_eq_false_iff]
  exact ⟨fun ⟨⟨value, hv, hb⟩, hne⟩ => ⟨value, hv, hb, hne⟩,
    fun ⟨value, hv, hb, hne⟩ => ⟨⟨value, hv, hb⟩, hne⟩⟩

/-- What `get` and the test for emptiness come to. -/
theorem get?_cases {α : Type} (n : Bytes) (some' : Bytes → α) (none' : α) :
    (match properties.get? n with
      | some value => if value.bytes ≠ [] then some' value.bytes else none'
      | none => none') = (stored properties n).elim none' some' := by
  rw [stored]
  cases properties.get? n with
  | none => rfl
  | some value =>
    dsimp only
    split_ifs with h
    · rw [Option.map_some, Option.filter_some_pos (by simpa using h)]
      rfl
    · rw [Option.map_some, Option.filter_some_neg (by simpa using h)]
      rfl

theorem resolveReference_of_none {r : Bytes} (h : ¬ defaultMark <:+: r) :
    resolveReference properties r = stored properties r := by
  rw [resolveReference, splitDefault_eq_none.mpr h]
  dsimp only
  refine (get?_cases r some none).trans ?_
  cases stored properties r <;> rfl

theorem resolveReference_of_default {n : Bytes} (h : ¬ defaultMark <:+: n) (d : Bytes) :
    resolveReference properties (n ++ defaultMark ++ d) = some ((stored properties n).getD d) := by
  rw [resolveReference, splitDefault_append h]
  dsimp only
  refine (get?_cases n some (some d)).trans ?_
  cases stored properties n <;> rfl

/-- The reference of the source resolves to what it stands for, or it has neither a value nor a
default. -/
theorem resolveReference_cases (r : Bytes) :
    (∃ v, Resolves properties r v ∧ resolveReference properties r = some v) ∨
    (¬ defaultMark <:+: r ∧ stored properties r = none ∧ resolveReference properties r = none) := by
  cases hs : splitDefault r with
  | none =>
    have hr := splitDefault_eq_none.mp hs
    rw [resolveReference_of_none hr]
    cases hv : stored properties r with
    | none => exact .inr ⟨hr, rfl, rfl⟩
    | some v => exact .inl ⟨v, .value hr hv, rfl⟩
  | some p =>
    obtain ⟨n, d⟩ := p
    obtain ⟨rfl, hn⟩ := splitDefault_eq_some hs
    rw [resolveReference_of_default hn]
    cases hv : stored properties n with
    | none => exact .inl ⟨d, .default hn hv, rfl⟩
    | some v => exact .inl ⟨v, .valueOr hn hv, rfl⟩

/-- The outcomes of the loop: it has read the rest of the path, or met an error. -/
theorem expandUpTo_cases {n : ℕ} {out s : Bytes} (hn : s.length < n) :
    (∃ x, Expands properties s x ∧ expandUpTo properties n out s = some (out ++ x)) ∨
    (Stops properties s ∧ expandUpTo properties n out s = none) := by
  induction n generalizing out s with
  | zero => omega
  | succ n ih =>
    rw [expandUpTo]
    cases hcut : cutAt dollar s with
    | none => exact .inl ⟨s, expands_of_notMem (cutAt_eq_none.mp hcut), rfl⟩
    | some p =>
      obtain ⟨before, after⟩ := p
      obtain rfl := cutAt_eq_some hcut
      have hb : Expands properties before before := expands_of_notMem (notMem_of_cutAt hcut)
      rw [List.length_append, List.length_cons] at hn
      cases after with
      | nil => exact .inr ⟨hb.append_stops (.bare (by simp) (by simp)), rfl⟩
      | cons c tail =>
        rw [List.length_cons] at hn
        dsimp only
        split_ifs with h1 h2
        · subst h1
          rcases @ih (out ++ before ++ [dollar]) tail (by omega) with ⟨x, hx, he⟩ | ⟨hx, he⟩
          · refine .inl ⟨before ++ dollar :: x, hb.append (.escape hx), he.trans ?_⟩
            simp
          · exact .inr ⟨hb.append_stops (.escape hx), he⟩
        · subst h2
          cases hclose : cutAt closeBrace tail with
          | none => exact .inr ⟨hb.append_stops (.unclosed (cutAt_eq_none.mp hclose)), rfl⟩
          | some q =>
            obtain ⟨r, rest⟩ := q
            obtain rfl := cutAt_eq_some hclose
            have hr := notMem_of_cutAt hclose
            have hform : dollar :: openBrace :: (r ++ closeBrace :: rest) = reference r ++ rest := by
              simp [reference]
            rw [List.length_append, List.length_cons] at hn
            rw [hform]
            dsimp only
            rcases @resolveReference_cases properties r with ⟨v, hv, hres⟩ | ⟨hmark, hv, hres⟩
            · rw [hres]
              rcases @ih (out ++ before ++ v) rest (by omega) with ⟨x, hx, he⟩ | ⟨hx, he⟩
              · refine .inl ⟨before ++ (v ++ x), hb.append (.reference hr hv hx), he.trans ?_⟩
                simp
              · exact .inr ⟨hb.append_stops (.reference hr hv hx), he⟩
            · rw [hres]
              exact .inr ⟨hb.append_stops (.missing hr hmark hv), rfl⟩
        · refine .inr ⟨hb.append_stops (.bare ?_ ?_), rfl⟩
          · simpa using h1
          · simpa using h2

/-! The other way round, the loop follows a reading token by token. -/

theorem Resolves.resolveReference_eq {r v : Bytes} (h : Resolves properties r v) :
    resolveReference properties r = some v := by
  cases h with
  | value hn hv => rw [resolveReference_of_none hn, hv]
  | valueOr hn hv => rw [resolveReference_of_default hn, hv, Option.getD_some]
  | default hn hv => rw [resolveReference_of_default hn, hv, Option.getD_none]

theorem expandUpTo_char {c : UInt8} (hc : c ≠ dollar) (n : ℕ) (out s : Bytes) :
    expandUpTo properties (n + 1) out (c :: s) = expandUpTo properties (n + 1) (out ++ [c]) s := by
  rw [expandUpTo, expandUpTo, cutAt, if_neg hc]
  cases cutAt dollar s with
  | none => simp
  | some p =>
    obtain ⟨before, after⟩ := p
    simp only [Option.map_some, List.append_assoc, List.cons_append, List.nil_append]

theorem expandUpTo_escape (n : ℕ) (out s : Bytes) :
    expandUpTo properties (n + 1) out (dollar :: dollar :: s) =
      expandUpTo properties n (out ++ [dollar]) s := by
  rw [expandUpTo, cutAt, if_pos rfl]
  dsimp only
  rw [if_pos rfl, List.append_nil]

theorem expandUpTo_reference {r : Bytes} (hr : closeBrace ∉ r) (n : ℕ) (out s : Bytes) :
    expandUpTo properties (n + 1) out (reference r ++ s) =
      (resolveReference properties r).bind fun v => expandUpTo properties n (out ++ v) s := by
  have hform : reference r ++ s = dollar :: openBrace :: (r ++ closeBrace :: s) := by
    simp [reference]
  rw [hform, expandUpTo, cutAt, if_pos rfl]
  dsimp only
  rw [if_neg (by decide), if_pos rfl, cutAt_append_cons hr, List.append_nil]
  dsimp only
  cases resolveReference properties r <;> rfl

theorem length_reference_append (r s : Bytes) :
    (reference r ++ s).length = r.length + s.length + 3 := by
  simp only [reference, List.length_append, List.length_cons, List.length_nil]
  omega

theorem Expands.expandUpTo_eq {s x : Bytes} (h : Expands properties s x) {n : ℕ} {out : Bytes}
    (hn : s.length < n) : expandUpTo properties n out s = some (out ++ x) := by
  induction h generalizing n out with
  | nil =>
    obtain ⟨n, rfl⟩ : ∃ k, n = k + 1 := ⟨n - 1, by omega⟩
    rfl
  | char hc _ ih =>
    obtain ⟨n, rfl⟩ : ∃ k, n = k + 1 := ⟨n - 1, by omega⟩
    rw [List.length_cons] at hn
    rw [expandUpTo_char hc, ih (by omega)]
    simp
  | escape _ ih =>
    obtain ⟨n, rfl⟩ : ∃ k, n = k + 1 := ⟨n - 1, by omega⟩
    rw [List.length_cons, List.length_cons] at hn
    rw [expandUpTo_escape, ih (by omega)]
    simp
  | reference hr hv _ ih =>
    obtain ⟨n, rfl⟩ : ∃ k, n = k + 1 := ⟨n - 1, by omega⟩
    rw [length_reference_append] at hn
    rw [expandUpTo_reference hr, hv.resolveReference_eq, Option.bind_some, ih (by omega)]
    simp

theorem Stops.expandUpTo_eq {s : Bytes} (h : Stops properties s) {n : ℕ} {out : Bytes}
    (hn : s.length < n) : expandUpTo properties n out s = none := by
  induction h generalizing n out with
  | @bare s h1 h2 =>
    obtain ⟨n, rfl⟩ : ∃ k, n = k + 1 := ⟨n - 1, by omega⟩
    rw [expandUpTo, cutAt, if_pos rfl]
    cases s with
    | nil => rfl
    | cons c s =>
      dsimp only
      rw [if_neg (by simpa using h1), if_neg (by simpa using h2)]
  | unclosed h =>
    obtain ⟨n, rfl⟩ : ∃ k, n = k + 1 := ⟨n - 1, by omega⟩
    rw [expandUpTo, cutAt, if_pos rfl]
    dsimp only
    rw [if_neg (by decide), if_pos rfl, cutAt_eq_none.mpr h]
  | missing hr hmark hv =>
    obtain ⟨n, rfl⟩ : ∃ k, n = k + 1 := ⟨n - 1, by omega⟩
    rw [expandUpTo_reference hr, resolveReference_of_none hmark, hv, Option.bind_none]
  | char hc _ ih =>
    obtain ⟨n, rfl⟩ : ∃ k, n = k + 1 := ⟨n - 1, by omega⟩
    rw [List.length_cons] at hn
    rw [expandUpTo_char hc, ih (by omega)]
  | escape _ ih =>
    obtain ⟨n, rfl⟩ : ∃ k, n = k + 1 := ⟨n - 1, by omega⟩
    rw [List.length_cons, List.length_cons] at hn
    rw [expandUpTo_escape, ih (by omega)]
  | reference hr hv _ ih =>
    obtain ⟨n, rfl⟩ : ∃ k, n = k + 1 := ⟨n - 1, by omega⟩
    rw [length_reference_append] at hn
    rw [expandUpTo_reference hr, hv.resolveReference_eq, Option.bind_some, ih (by omega)]

/-- **The loop of the source is the reading of the path.** -/
theorem expandImportPath_eq_some {s x : Bytes} :
    expandImportPath s properties = some x ↔ Expands properties s x := by
  constructor
  · intro h
    rcases @expandUpTo_cases properties _ [] s (Nat.lt_succ_self _) with ⟨y, hy, he⟩ | ⟨-, he⟩
    · rw [expandImportPath, he] at h
      obtain rfl := Option.some.inj h
      exact hy
    · rw [expandImportPath, he] at h
      cases h
  · exact fun h => h.expandUpTo_eq (Nat.lt_succ_self _)

theorem expandImportPath_eq_none {s : Bytes} :
    expandImportPath s properties = none ↔ Stops properties s := by
  constructor
  · intro h
    rcases @expandUpTo_cases properties _ [] s (Nat.lt_succ_self _) with ⟨y, -, he⟩ | ⟨hs, -⟩
    · rw [expandImportPath, he] at h
      cases h
    · exact hs
  · exact fun h => h.expandUpTo_eq (Nat.lt_succ_self _)

end Loop

/-! ### Laws -/

/-- Every `$` written as `$$`. -/
def escapeDollars (s : Bytes) : Bytes := s.flatMap fun c => if c = dollar then [dollar, dollar] else [c]

theorem expands_escapeDollars (properties : PropertyMap) (s : Bytes) :
    Expands properties (escapeDollars s) s := by
  induction s with
  | nil => exact .nil
  | cons c s ih =>
    rw [escapeDollars, List.flatMap_cons]
    split_ifs with hc
    · rw [hc]
      exact .escape ih
    · exact .char hc ih

/-- **Import path expansion is single-pass and compositional.** Doubling every `$` is undone by the expansion; what
stands behind a path that expands is expanded on its own; a reference is replaced by the stored value as it
is, or by its default when there is none that is not empty; and there is no expansion exactly when reading
from left to right meets an error. -/
theorem expandImportPath_laws (properties : PropertyMap) :
    (∀ s, expandImportPath (escapeDollars s) properties = some s) ∧
    (∀ a x b, expandImportPath a properties = some x →
      expandImportPath (a ++ b) properties = (expandImportPath b properties).map (x ++ ·)) ∧
    (∀ n v, closeBrace ∉ n → ¬ defaultMark <:+: n → properties.get? n = some v → v.bytes ≠ [] →
      expandImportPath (reference n) properties = some v.bytes) ∧
    (∀ n d, closeBrace ∉ n → ¬ defaultMark <:+: n → closeBrace ∉ d →
      (∀ v, properties.get? n = some v → v.bytes ≠ [] →
        expandImportPath (referenceOr n d) properties = some v.bytes) ∧
      ((∀ v, properties.get? n = some v → v.bytes = []) →
        expandImportPath (referenceOr n d) properties = some d)) ∧
    (∀ s, expandImportPath s properties = none ↔ Stops properties s) := by
  have alone : ∀ {r v : Bytes}, closeBrace ∉ r → Resolves properties r v →
      expandImportPath (reference r) properties = some v := by
    intro r v hr hv
    have h := Expands.reference hr hv (@Expands.nil properties)
    rw [List.append_nil, List.append_nil] at h
    exact expandImportPath_eq_some.mpr h
  refine ⟨fun s => expandImportPath_eq_some.mpr (expands_escapeDollars properties s),
    fun a x b ha => ?_, fun n v hn hmark hv hne => ?_, fun n d hn hmark hd => ?_,
    fun s => expandImportPath_eq_none⟩
  · have ha' := expandImportPath_eq_some.mp ha
    cases hb : expandImportPath b properties with
    | none =>
      exact expandImportPath_eq_none.mpr (ha'.append_stops (expandImportPath_eq_none.mp hb))
    | some y =>
      exact expandImportPath_eq_some.mpr (ha'.append (expandImportPath_eq_some.mp hb))
  · exact alone hn (.value hmark (stored_eq_some.mpr ⟨v, hv, rfl, hne⟩))
  · have hr : closeBrace ∉ n ++ defaultMark ++ d := by
      rw [List.mem_append, List.mem_append]
      rintro ((h | h) | h)
      · exact hn h
      · exact absurd h (by decide)
      · exact hd h
    refine ⟨fun v hv hne => ?_, fun hv => ?_⟩
    · exact alone hr (.valueOr hmark (stored_eq_some.mpr ⟨v, hv, rfl, hne⟩))
    · refine alone hr (.default hmark ?_)
      rw [Option.eq_none_iff_forall_ne_some]
      intro v hs
      obtain ⟨value, hget, rfl, hne⟩ := stored_eq_some.mp hs
      exact hne (hv value hget)

end RsProperties
