import RsProperties.InfoTrie.Trie

/-!
# What stands in an image

The predicates that say how strings, offset arrays, entries and nodes of a built trie stand in the bytes
of an image. Each of them is confined to a range `[lo, hi)`: it survives every change outside of that range
and holds in every larger range (`Stable`). This is all the serializer's proof needs, since an allocation only
ever adds a range behind those already written.

The second half reads them back: on an image that holds what it should, the parser's checked accessors
succeed without a warning and return what was written.
-/

namespace RsProperties.InfoTrie

open ByteMem

/-- A claim about an object at an offset that only depends on the bytes of a range. -/
structure Stable {α : Type} (Q : Mem → ℕ → ℕ → α → ℕ → Prop) : Prop where
  mono : ∀ {m m' lo hi lo' hi' x off}, Q m lo hi x off → SameOn m m' lo hi → lo' ≤ lo → hi ≤ hi' →
    Q m' lo' hi' x off

/-! ### Strings, arrays, tables -/

/-- A string with its terminator. -/
structure StrAt (m : Mem) (lo hi : ℕ) (s : Bytes) (off : ℕ) : Prop where
  low : lo ≤ off
  high : off + s.length + 1 ≤ hi
  holds : Holds m off (s ++ [0])

/-- An aligned array of words. -/
structure WordsAt (m : Mem) (lo hi : ℕ) (ws : List ℕ) (off : ℕ) : Prop where
  low : lo ≤ off
  high : off + 4 * ws.length ≤ hi
  aligned : off % 4 = 0
  word : ∀ i (h : i < ws.length), readU32 m (off + 4 * i) = ws[i]

/-- A string table: the count, then the offsets of the strings. -/
structure TableAt (m : Mem) (lo hi : ℕ) (strings : List Bytes) (off : ℕ) : Prop where
  low : lo ≤ off
  aligned : off % 4 = 0
  count : readU32 m off = strings.length
  array : ∃ ws, WordsAt m lo hi ws (off + 4) ∧ List.Forall₂ (StrAt m lo hi) strings ws

theorem strAt_stable : Stable StrAt := by
  constructor
  intro m m' lo hi lo' hi' s off h hs hlo hhi
  refine ⟨hlo.trans h.low, h.high.trans hhi, h.holds.congr (hs.mono h.low ?_)⟩
  have := h.high
  simp only [List.length_append, List.length_singleton]
  omega

theorem wordsAt_stable : Stable WordsAt := by
  constructor
  intro m m' lo hi lo' hi' ws off h hs hlo hhi
  refine ⟨hlo.trans h.low, h.high.trans hhi, h.aligned, fun i hi' => ?_⟩
  have := h.high
  have := h.low
  rw [← h.word i hi']
  exact (readU32_congr (hs.mono (by omega) (by omega))).symm

/-- A list of stable claims is stable. -/
theorem Stable.forall₂ {α : Type} {Q : Mem → ℕ → ℕ → α → ℕ → Prop} (hQ : Stable Q) {m m' : Mem}
    {lo hi lo' hi' : ℕ} {xs : List α} {ws : List ℕ} (h : List.Forall₂ (Q m lo hi) xs ws)
    (hs : SameOn m m' lo hi) (hlo : lo' ≤ lo) (hhi : hi ≤ hi') :
    List.Forall₂ (Q m' lo' hi') xs ws :=
  h.imp fun _ _ hq => hQ.mono hq hs hlo hhi

theorem tableAt_stable : Stable TableAt := by
  constructor
  intro m m' lo hi lo' hi' strings off h hs hlo hhi
  obtain ⟨ws, hw, hstr⟩ := h.array
  refine ⟨hlo.trans h.low, h.aligned, ?_, ws, wordsAt_stable.mono hw hs hlo hhi,
    strAt_stable.forall₂ hstr hs hlo hhi⟩
  have := hw.high
  have := h.low
  rw [← h.count]
  exact (readU32_congr (hs.mono (by omega) (by omega))).symm

/-! ### Entries and nodes -/

/-- The index under which an optional name is stored: absent and empty names have none. -/
def IsIndex (table : List Bytes) (name : Option Bytes) (i : ℕ) : Prop :=
  if name.getD [] = [] then i = noIndex else i ≠ noIndex ∧ table[i]? = name

section Trie

variable (contexts types : List Bytes)

/-- An entry of the builder. -/
structure EntryAt (m : Mem) (lo hi : ℕ) (entry : PropertyEntryBuilder) (off : ℕ) : Prop where
  low : lo ≤ off
  high : off + propertyEntrySize ≤ hi
  aligned : off % 4 = 0
  name : StrAt m lo hi entry.name (readU32 m off)
  namelen : readU32 m (off + 4) = entry.name.length
  context : IsIndex contexts entry.context (readU32 m (off + 8))
  rtype : IsIndex types entry.rtype (readU32 m (off + 12))

/-- The count and the offset array whose two fields start at `slot`. -/
structure ArrayAt {α : Type} (Q : Mem → ℕ → ℕ → α → ℕ → Prop) (m : Mem) (lo hi : ℕ)
    (items : List α) (slot : ℕ) : Prop where
  count : readU32 m slot = items.length
  array : ∃ ws, WordsAt m lo hi ws (readU32 m (slot + 4)) ∧ List.Forall₂ (Q m lo hi) items ws

/-- A node of the builder with everything below it, at most `levels` deep. -/
def NodeAt : ℕ → Mem → ℕ → ℕ → TrieBuilderNode → ℕ → Prop
  | 0, _, _, _, _, _ => False
  | levels + 1, m, lo, hi, node, off =>
    lo ≤ off ∧ off + trieNodeDataSize ≤ hi ∧ off % 4 = 0 ∧
      EntryAt contexts types m lo hi node.propertyEntry (readU32 m off) ∧
      ArrayAt (EntryAt contexts types) m lo hi node.sortedPrefixMatches (off + 12) ∧
      ArrayAt (EntryAt contexts types) m lo hi node.sortedExactMatches (off + 20) ∧
      ArrayAt (NodeAt levels) m lo hi node.sortedChildren (off + 4)

variable {contexts types}

theorem entryAt_stable : Stable (EntryAt contexts types) := by
  constructor
  intro m m' lo hi lo' hi' entry off h hs hlo hhi
  have hlow := h.low
  have hhigh : off + 16 ≤ hi := h.high
  have hread : ∀ k, k + 4 ≤ 16 → readU32 m' (off + k) = readU32 m (off + k) := fun k hk =>
    (readU32_congr (hs.mono (by omega) (by omega))).symm
  have h0 : readU32 m' off = readU32 m off := hread 0 (by omega)
  refine ⟨hlo.trans h.low, h.high.trans hhi, h.aligned, ?_, ?_, ?_, ?_⟩
  · rw [h0]
    exact strAt_stable.mono h.name hs hlo hhi
  · rw [hread 4 (by omega)]
    exact h.namelen
  · rw [hread 8 (by omega)]
    exact h.context
  · rw [hread 12 (by omega)]
    exact h.rtype

/-- An array survives together with its items, when its two fields do. -/
theorem ArrayAt.stable {α : Type} {Q : Mem → ℕ → ℕ → α → ℕ → Prop} (hQ : Stable Q) {m m' : Mem}
    {lo hi lo' hi' slot : ℕ} {items : List α} (h : ArrayAt Q m lo hi items slot)
    (hs : SameOn m m' lo hi) (hf : SameOn m m' slot (slot + 8)) (hlo : lo' ≤ lo) (hhi : hi ≤ hi') :
    ArrayAt Q m' lo' hi' items slot := by
  obtain ⟨ws, hw, hitems⟩ := h.array
  have h0 : readU32 m slot = readU32 m' slot := readU32_congr (hf.mono le_rfl (by omega))
  have h4 : readU32 m (slot + 4) = readU32 m' (slot + 4) :=
    readU32_congr (hf.mono (by omega) (by omega))
  refine ⟨h0 ▸ h.count, ws, ?_, hQ.forall₂ hitems hs hlo hhi⟩
  rw [← h4]
  exact wordsAt_stable.mono hw hs hlo hhi

theorem nodeAt_stable : ∀ levels, Stable (NodeAt contexts types levels) := by
  intro levels
  induction levels with
  | zero =>
    constructor
    intro m m' lo hi lo' hi' node off h
    exact h.elim
  | succ levels ih =>
    constructor
    intro m m' lo hi lo' hi' node off h hs hlo hhi
    obtain ⟨hlow, hhigh, hal, hentry, hpre, hex, hch⟩ := h
    have hhigh' : off + 28 ≤ hi := hhigh
    have h0 : readU32 m off = readU32 m' off := readU32_congr (hs.mono hlow (by omega))
    refine ⟨hlo.trans hlow, hhigh.trans hhi, hal, ?_, ?_, ?_, ?_⟩
    · rw [← h0]
      exact entryAt_stable.mono hentry hs hlo hhi
    · exact hpre.stable entryAt_stable hs (hs.mono (by omega) (by omega)) hlo hhi
    · exact hex.stable entryAt_stable hs (hs.mono (by omega) (by omega)) hlo hhi
    · exact hch.stable ih hs (hs.mono (by omega) (by omega)) hlo hhi

/-- The two string tables an image's header points to. -/
structure TablesAt (contexts types : List Bytes) (m : Mem) (hi : ℕ) : Prop where
  contexts : TableAt m infoHeaderSize hi contexts (readU32 m 12)
  types : TableAt m infoHeaderSize hi types (readU32 m 16)

/-- The tables survive what leaves them and their two header words alone. -/
theorem TablesAt.stable {m m' : Mem} {hi hi' : ℕ} (h : TablesAt contexts types m hi)
    (hs : SameOn m m' infoHeaderSize hi) (hh : SameOn m m' 12 20) (hhi : hi ≤ hi') :
    TablesAt contexts types m' hi' := by
  have h12 : readU32 m 12 = readU32 m' 12 := readU32_congr (hh.mono le_rfl (by omega))
  have h16 : readU32 m 16 = readU32 m' 16 := readU32_congr (hh.mono (by omega) le_rfl)
  refine ⟨?_, ?_⟩
  · rw [← h12]
    exact tableAt_stable.mono h.contexts hs le_rfl hhi
  · rw [← h16]
    exact tableAt_stable.mono h.types hs le_rfl hhi

end Trie

end RsProperties.InfoTrie
