import RsProperties.Wire

/-!
# Text

The string operations of the file parsers: trimming and splitting at white space, and cutting at an ASCII
character. White space is the Unicode property, as in `str::trim` and `str::split_whitespace`; its characters
are given by their UTF-8 forms. A form begins with a byte that begins a character, so it is found in the
bytes of a string only where the character stands, and what is left of a string on either side of it is a
string again.
-/

namespace RsProperties

open ByteMem

/-! ### White space -/

/-- The characters with the property `White_Space`. -/
def whitespaceChars : List Bytes :=
  [[0x09], [0x0A], [0x0B], [0x0C], [0x0D], [0x20], [0xC2, 0x85], [0xC2, 0xA0], [0xE1, 0x9A, 0x80],
    [0xE2, 0x80, 0x80], [0xE2, 0x80, 0x81], [0xE2, 0x80, 0x82], [0xE2, 0x80, 0x83],
    [0xE2, 0x80, 0x84], [0xE2, 0x80, 0x85], [0xE2, 0x80, 0x86], [0xE2, 0x80, 0x87],
    [0xE2, 0x80, 0x88], [0xE2, 0x80, 0x89], [0xE2, 0x80, 0x8A], [0xE2, 0x80, 0xA8],
    [0xE2, 0x80, 0xA9], [0xE2, 0x80, 0xAF], [0xE2, 0x81, 0x9F], [0xE3, 0x80, 0x80]]

/-- The white space character at the beginning of a string. -/
def leadingSpace (s : Bytes) : Option Bytes := whitespaceChars.find? fun w => w.isPrefixOf s

/-- The white space character at the end of a string. -/
def trailingSpace (s : Bytes) : Option Bytes := whitespaceChars.find? fun w => w.isSuffixOf s

/-- Drop white space at the beginning, up to a number of characters. -/
def trimStartUpTo : ℕ → Bytes → Bytes
  | 0, s => s
  | n + 1, s =>
    match leadingSpace s with
    | some w => trimStartUpTo n (s.drop w.length)
    | none => s

/-- Drop white space at the end, up to a number of characters. -/
def trimEndUpTo : ℕ → Bytes → Bytes
  | 0, s => s
  | n + 1, s =>
    match trailingSpace s with
    | some w => trimEndUpTo n (s.take (s.length - w.length))
    | none => s

/-- The words between white space, behind a word that has begun already. -/
def wordsUpTo : ℕ → Bytes → Bytes → List Bytes
  | 0, word, s => [word ++ s]
  | n + 1, word, s =>
    match leadingSpace s with
    | some w => word :: wordsUpTo n [] (s.drop w.length)
    | none =>
      match s with
      | [] => [word]
      | c :: s => wordsUpTo n (word ++ [c]) s

/-- What stands before and behind the first `c`. -/
def cutAt (c : UInt8) : Bytes → Option (Bytes × Bytes)
  | [] => none
  | x :: s => if x = c then some ([], s) else (cutAt c s).map fun (a, b) => (x :: a, b)

/-! ### What is cut is a string -/

/-- A form begins with a byte that begins a character. -/
theorem whitespaceChars_spec : ∀ w ∈ whitespaceChars, ∃ b rest, w = b :: rest ∧
    (b.toNat < 0x80 ∨ 0xC0 ≤ b.toNat) ∧ Utf8.valid (b :: rest) = true := by
  intro w hw
  have hall : ∀ w ∈ whitespaceChars, (w.head?.any fun b => b.toNat < 0x80 || 0xC0 ≤ b.toNat) &&
      Utf8.valid w = true := by
    decide
  have h := hall w hw
  cases w with
  | nil => cases h
  | cons b rest =>
    simp only [List.head?_cons, Option.any_some, Bool.and_eq_true, Bool.or_eq_true,
      decide_eq_true_eq] at h
    exact ⟨b, rest, rfl, h.1, h.2⟩

theorem valid_append_space {w : Bytes} (hw : w ∈ whitespaceChars) {a b : Bytes} :
    Utf8.valid (a ++ (w ++ b)) = true ↔ Utf8.valid a = true ∧ Utf8.valid b = true := by
  obtain ⟨c, rest, rfl, hc, hvalid⟩ := whitespaceChars_spec w hw
  exact Utf8.valid_append_char hc hvalid

theorem leadingSpace_eq_some {s w : Bytes} (h : leadingSpace s = some w) :
    w ∈ whitespaceChars ∧ s = w ++ s.drop w.length := by
  have hp : w <+: s := by simpa using List.find?_some h
  obtain ⟨t, rfl⟩ := hp
  exact ⟨List.mem_of_find?_eq_some h, by simp⟩

theorem trailingSpace_eq_some {s w : Bytes} (h : trailingSpace s = some w) :
    w ∈ whitespaceChars ∧ s = s.take (s.length - w.length) ++ w := by
  have hs : w <:+ s := by simpa using List.find?_some h
  obtain ⟨t, rfl⟩ := hs
  exact ⟨List.mem_of_find?_eq_some h, by simp⟩

theorem valid_trimStartUpTo {n : ℕ} {s : Bytes} (h : Utf8.valid s = true) :
    Utf8.valid (trimStartUpTo n s) = true := by
  induction n generalizing s with
  | zero => exact h
  | succ n ih =>
    rw [trimStartUpTo]
    cases hl : leadingSpace s with
    | none => exact h
    | some w =>
      obtain ⟨hw, hs⟩ := leadingSpace_eq_some hl
      rw [hs] at h
      exact ih ((@valid_append_space w hw [] _).mp h).2

theorem valid_trimEndUpTo {n : ℕ} {s : Bytes} (h : Utf8.valid s = true) :
    Utf8.valid (trimEndUpTo n s) = true := by
  induction n generalizing s with
  | zero => exact h
  | succ n ih =>
    rw [trimEndUpTo]
    cases hl : trailingSpace s with
    | none => exact h
    | some w =>
      obtain ⟨hw, hs⟩ := trailingSpace_eq_some hl
      rw [hs] at h
      refine ih ((@valid_append_space w hw _ []).mp ?_).1
      rwa [List.append_nil]

theorem valid_of_mem_wordsUpTo {n : ℕ} {word s : Bytes} (h : Utf8.valid (word ++ s) = true) :
    ∀ x ∈ wordsUpTo n word s, Utf8.valid x = true := by
  induction n generalizing word s with
  | zero => simpa [wordsUpTo] using h
  | succ n ih =>
    unfold wordsUpTo
    cases hl : leadingSpace s with
    | some w =>
      obtain ⟨hw, hs⟩ := leadingSpace_eq_some hl
      rw [hs] at h
      obtain ⟨hword, hrest⟩ := (valid_append_space hw).mp h
      intro x hx
      rcases List.mem_cons.mp hx with rfl | hx
      · exact hword
      · exact ih hrest x hx
    | none =>
      cases s with
      | nil => simpa using h
      | cons c s => exact ih (by rwa [List.append_assoc])

theorem cutAt_eq_some {c : UInt8} {s a b : Bytes} (h : cutAt c s = some (a, b)) :
    s = a ++ c :: b := by
  induction s generalizing a with
  | nil => cases h
  | cons x s ih =>
    rw [cutAt] at h
    split_ifs at h with hx
    · cases h
      rw [hx]
      rfl
    · obtain ⟨⟨a', b'⟩, hcut, heq⟩ := Option.map_eq_some_iff.mp h
      cases heq
      rw [ih hcut]
      rfl

theorem cutAt_eq_none {c : UInt8} {s : Bytes} : cutAt c s = none ↔ c ∉ s := by
  induction s with
  | nil => simp [cutAt]
  | cons x s ih =>
    rw [cutAt, List.mem_cons]
    split_ifs with hx
    · simp [hx]
    · rw [Option.map_eq_none_iff, ih, not_or]
      exact ⟨fun h => ⟨Ne.symm hx, h⟩, fun h => h.2⟩

theorem cutAt_append_cons {c : UInt8} {a b : Bytes} (h : c ∉ a) :
    cutAt c (a ++ c :: b) = some (a, b) := by
  induction a with
  | nil => rw [List.nil_append, cutAt, if_pos rfl]
  | cons x a ih =>
    rw [List.mem_cons, not_or] at h
    rw [List.cons_append, cutAt, if_neg (Ne.symm h.1), ih h.2]
    rfl

/-- What stands before the cut does not contain the character. -/
theorem notMem_of_cutAt {c : UInt8} {s a b : Bytes} (h : cutAt c s = some (a, b)) : c ∉ a := by
  induction s generalizing a with
  | nil => cases h
  | cons x s ih =>
    rw [cutAt] at h
    split_ifs at h with hx
    · cases h
      exact List.not_mem_nil
    · obtain ⟨⟨a', b'⟩, hcut, heq⟩ := Option.map_eq_some_iff.mp h
      cases heq
      rw [List.mem_cons, not_or]
      exact ⟨Ne.symm hx, ih hcut⟩

theorem cutAt_eq_some_iff {c : UInt8} {s a b : Bytes} :
    cutAt c s = some (a, b) ↔ s = a ++ c :: b ∧ c ∉ a := by
  constructor
  · exact fun h => ⟨cutAt_eq_some h, notMem_of_cutAt h⟩
  · rintro ⟨rfl, h⟩
    exact cutAt_append_cons h

namespace Str

variable (s : Str)

/-- `str::trim_end`. -/
def trimEnd : Str := ⟨trimEndUpTo s.bytes.length s.bytes, valid_trimEndUpTo s.valid⟩

/-- `str::trim`. -/
def trim : Str :=
  ⟨trimStartUpTo s.bytes.length s.trimEnd.bytes, valid_trimStartUpTo s.trimEnd.valid⟩

/-- `str::split_whitespace`. -/
def splitWhitespace : List Str :=
  ((wordsUpTo (s.bytes.length + 1) [] s.bytes).attach.map fun w =>
    (⟨w.1, @valid_of_mem_wordsUpTo _ [] _ s.valid w.1 w.2⟩ : Str)).filter fun w => !w.bytes.isEmpty

/-- `str::split_once` at an ASCII character. -/
def splitOnce (c : UInt8) (hc : c.toNat < 0x80) : Option (Str × Str) :=
  match h : cutAt c s.bytes with
  | none => none
  | some (a, b) =>
    have hv : Utf8.valid a = true ∧ Utf8.valid b = true :=
      (Utf8.valid_append_cons hc).mp (cutAt_eq_some h ▸ s.valid)
    some (⟨a, hv.1⟩, ⟨b, hv.2⟩)

/-- `str::strip_prefix` of an ASCII prefix; what is left of a string is a string. -/
def stripPrefix (p : Bytes) : Option Str :=
  if p.isPrefixOf s.bytes then fromUtf8 (s.bytes.drop p.length) else none

theorem splitOnce_eq_some {c : UInt8} {hc : c.toNat < 0x80} {a b : Str} :
    s.splitOnce c hc = some (a, b) ↔ cutAt c s.bytes = some (a.bytes, b.bytes) := by
  unfold splitOnce
  split
  · rename_i h
    simp [h]
  · rename_i a' b' h
    simp only [h, Option.some.injEq, Prod.mk.injEq]
    constructor
    · rintro ⟨ha, hb⟩
      exact ⟨congrArg bytes ha, congrArg bytes hb⟩
    · rintro ⟨ha, hb⟩
      exact ⟨Str.ext ha, Str.ext hb⟩

theorem stripPrefix_eq_some {p : Bytes} {rest : Str} :
    s.stripPrefix p = some rest ↔ s.bytes = p ++ rest.bytes := by
  unfold stripPrefix
  constructor
  · intro h
    split_ifs at h with hp
    obtain ⟨t, ht⟩ := List.isPrefixOf_iff_prefix.mp hp
    rw [← ht, List.drop_left] at h
    rw [← ht, bytes_of_fromUtf8 h]
  · intro h
    rw [h, if_pos (by simp), List.drop_left, fromUtf8_bytes]

/-- `[s].join(" ")`. -/
def joinSpace : List Str → Str
  | [] => ⟨[], rfl⟩
  | [s] => s
  | s :: t :: rest =>
    ⟨s.bytes ++ 32 :: (joinSpace (t :: rest)).bytes,
      (Utf8.valid_append_cons (by decide)).mpr ⟨s.valid, (joinSpace (t :: rest)).valid⟩⟩

-- a no-break space is white space, and what stands between the words is not kept
example : (Str.trim ⟨[0xC2, 0xA0, 97, 32, 98, 10], by decide⟩).bytes = [97, 32, 98] ∧
    (Str.splitWhitespace ⟨[32, 97, 9, 32, 98, 10], by decide⟩).map Str.bytes = [[97], [98]] := by
  decide

end Str

end RsProperties
