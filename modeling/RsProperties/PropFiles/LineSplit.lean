import RsProperties.PropFiles.Lines

/-!
# The lines of a stream

What `read_bounded_line` does to a stream, whatever chunks the stream comes in: a call takes the first line
with its newline (`readBoundedLine_eq`). So the calls up to the end of the file cut the stream into its lines,
`streamLines`, and nothing they return depends on the chunks.

`lineLength` is where the first line ends; both loops of the source are brought to it, the limited
`read_until` to the part of the line within its limit and the draining loop to the rest.
-/

namespace RsProperties

open ByteMem

/-! ### Lines -/

/-- The length of the first line, its newline included. -/
def lineLength : Bytes → ℕ
  | [] => 0
  | b :: s => if b = newline then 1 else lineLength s + 1

/-- The lines of a stream; the last one may have no newline. -/
def streamLines : Bytes → List Bytes
  | [] => []
  | b :: s =>
    if b = newline then [b] :: streamLines s
    else
      match streamLines s with
      | [] => [[b]]
      | line :: lines => (b :: line) :: lines

/-- A line without its newline. -/
def lineBody (line : Bytes) : Bytes := if line.getLast? = some newline then line.dropLast else line

/-- A stream cut into lines: none is empty, a newline only ends a line, and it ends all lines but the
last. -/
structure LinesOf (stream : Bytes) (lines : List Bytes) : Prop where
  flatten : lines.flatten = stream
  ne_nil : ∀ line ∈ lines, line ≠ []
  inner : ∀ line ∈ lines, newline ∉ line.dropLast
  ended : ∀ line ∈ lines.dropLast, line.getLast? = some newline

section LineLength

variable {s a b : Bytes}

theorem lineLength_append (h : newline ∉ a) : lineLength (a ++ b) = a.length + lineLength b := by
  induction a with
  | nil => simp
  | cons x a ih =>
    rw [List.mem_cons, not_or] at h
    rw [List.cons_append, lineLength, if_neg (Ne.symm h.1), ih h.2, List.length_cons]
    omega

theorem lineLength_append_newline (h : newline ∉ a) :
    lineLength (a ++ newline :: b) = a.length + 1 := by
  rw [lineLength_append h, lineLength, if_pos rfl]

theorem take_line (a b : Bytes) : (a ++ newline :: b).take (a.length + 1) = a ++ [newline] := by
  simp [List.take_append]

theorem drop_line (a b : Bytes) : (a ++ newline :: b).drop (a.length + 1) = b := by
  rw [← List.drop_drop, List.drop_left]
  rfl

theorem lineLength_of_notMem (h : newline ∉ s) : lineLength s = s.length := by
  have hl := lineLength_append (b := []) h
  rwa [List.append_nil, lineLength, Nat.add_zero] at hl

theorem lineLength_le (s : Bytes) : lineLength s ≤ s.length := by
  induction s with
  | nil => exact le_rfl
  | cons b s ih =>
    rw [lineLength, List.length_cons]
    split_ifs <;> omega

/-- A stream has a first newline or none. -/
theorem newline_cases (s : Bytes) :
    (∃ body rest, newline ∉ body ∧ s = body ++ newline :: rest) ∨ newline ∉ s := by
  by_cases h : newline ∈ s
  · obtain ⟨body, rest, rfl, hb⟩ := List.eq_append_cons_of_mem h
    exact .inl ⟨body, rest, hb, rfl⟩
  · exact .inr h

theorem findIdx?_newline (h : newline ∉ a) :
    (a ++ newline :: b).findIdx? (· = newline) = some a.length := by
  have hnone : a.findIdx? (· = newline) = none := by
    rw [List.findIdx?_eq_none_iff]
    intro x hx
    simpa using fun he : x = newline => h (he ▸ hx)
  rw [List.findIdx?_append, hnone, List.findIdx?_cons]
  simp

theorem findIdx?_of_notMem (h : newline ∉ s) : s.findIdx? (· = newline) = none := by
  rw [List.findIdx?_eq_none_iff]
  intro x hx
  simpa using fun he : x = newline => h (he ▸ hx)

end LineLength

/-! ### The two loops -/

theorem flatten_pushChunk (c : Bytes) (chunks : List Bytes) :
    (pushChunk c chunks).flatten = c ++ chunks.flatten := by
  unfold pushChunk
  split_ifs with hc
  · rw [hc, List.nil_append]
  · rfl

/-- **The limited `read_until`** takes the part of the first line within its limit. -/
theorem takeReadUntil_eq (limit : ℕ) (chunks : List Bytes) :
    (takeReadUntil limit chunks).1 =
      chunks.flatten.take (min limit (lineLength chunks.flatten)) ∧
    (takeReadUntil limit chunks).2.flatten =
      chunks.flatten.drop (min limit (lineLength chunks.flatten)) := by
  induction chunks generalizing limit with
  | nil => simp [takeReadUntil]
  | cons c chunks ih =>
    rw [takeReadUntil, List.flatten_cons]
    have hsplit : c.take limit ++ (c.drop limit ++ chunks.flatten) = c ++ chunks.flatten := by
      rw [← List.append_assoc, List.take_append_drop]
    rcases newline_cases (c.take limit) with ⟨body, rest, hb, hc⟩ | hc
    · -- the newline is in this chunk, within the limit
      have hlen : body.length + 1 ≤ limit := by
        have h1 := congrArg List.length hc
        have h2 := List.length_take_le limit c
        rw [List.length_append, List.length_cons] at h1
        omega
      have hline : lineLength (c ++ chunks.flatten) = body.length + 1 := by
        rw [← hsplit, hc, List.append_assoc, List.cons_append, lineLength_append_newline hb]
      have hle : body.length + 1 ≤ c.length := by
        have h1 := congrArg List.length hc
        rw [List.length_append, List.length_cons, List.length_take] at h1
        omega
      rw [hc, findIdx?_newline hb]
      dsimp only
      rw [hline, min_eq_right hlen, flatten_pushChunk, ← hc, List.take_take, min_eq_left hlen,
        List.take_append_of_le_length hle, List.drop_append_of_le_length hle]
      exact ⟨rfl, rfl⟩
    · rw [findIdx?_of_notMem hc]
      dsimp only
      split_ifs with hl
      · have hline : limit ≤ lineLength (c ++ chunks.flatten) := by
          rw [← hsplit, lineLength_append hc, List.length_take]
          omega
        rw [min_eq_left hline, flatten_pushChunk, List.take_append_of_le_length hl,
          List.drop_append_of_le_length hl]
        exact ⟨rfl, rfl⟩
      · have htake : c.take limit = c := List.take_of_length_le (by omega)
        rw [htake] at hc ⊢
        have hmin : min limit (lineLength (c ++ chunks.flatten)) =
            c.length + min (limit - c.length) (lineLength chunks.flatten) := by
          rw [lineLength_append hc]
          omega
        obtain ⟨h1, h2⟩ := ih (limit - c.length)
        rw [hmin, List.take_length_add_append, List.drop_length_add_append, h1, h2]
        exact ⟨rfl, rfl⟩

/-- **The draining loop** takes the rest of the line. -/
theorem drainLine_eq (chunks : List Bytes) :
    (drainLine chunks).1 = lineLength chunks.flatten ∧
    (drainLine chunks).2.flatten = chunks.flatten.drop (lineLength chunks.flatten) := by
  induction chunks with
  | nil => simp [drainLine, lineLength]
  | cons c chunks ih =>
    rw [drainLine, List.flatten_cons]
    rcases newline_cases c with ⟨body, rest, hb, rfl⟩ | hc
    · rw [findIdx?_newline hb, List.append_assoc, List.cons_append, lineLength_append_newline hb]
      dsimp only
      refine ⟨rfl, ?_⟩
      rw [flatten_pushChunk, drop_line, drop_line]
    · rw [findIdx?_of_notMem hc, lineLength_append hc]
      dsimp only
      rw [ih.1, ih.2, List.drop_length_add_append]
      exact ⟨rfl, rfl⟩

/-! ### One call -/

/-- What a call returns for a line: the line, or the beginning of one whose body is too long. -/
def boundedLine (line : Bytes) : BoundedLine where
  read := line.length
  truncated := decide (maxLineLen < (lineBody line).length)
  buf := if maxLineLen < (lineBody line).length then line.take maxLineLen else line

theorem getLast?_ne_newline {s : Bytes} (h : newline ∉ s) : s.getLast? ≠ some newline :=
  fun hl => h (List.mem_of_getLast? hl)

theorem lineBody_of_notMem {s : Bytes} (h : newline ∉ s) : lineBody s = s :=
  if_neg (getLast?_ne_newline h)

theorem lineBody_append_newline (body : Bytes) : lineBody (body ++ [newline]) = body := by
  rw [lineBody, if_pos List.getLast?_concat, List.dropLast_concat]

/-- The three ways the first line can stand to the bound: it ends in a newline and its body fits, it is the
unterminated rest of the stream and fits, or there is more of it than fits. -/
theorem line_cases (s : Bytes) :
    (∃ body rest, newline ∉ body ∧ body.length ≤ maxLineLen ∧ s = body ++ newline :: rest) ∨
    (newline ∉ s ∧ s.length ≤ maxLineLen) ∨
    (newline ∉ s.take (maxLineLen + 1) ∧ maxLineLen < s.length) := by
  rcases newline_cases s with ⟨body, rest, hb, rfl⟩ | hs
  · by_cases hle : body.length ≤ maxLineLen
    · exact .inl ⟨body, rest, hb, hle, rfl⟩
    · refine .inr (.inr ⟨fun hm => hb ?_, ?_⟩)
      · rw [List.take_append_of_le_length (by omega)] at hm
        exact List.mem_of_mem_take hm
      · rw [List.length_append]
        omega
  · by_cases hle : s.length ≤ maxLineLen
    · exact .inr (.inl ⟨hs, hle⟩)
    · exact .inr (.inr ⟨fun hm => hs (List.mem_of_mem_take hm), by omega⟩)

/-- A stream without a newline in its first `n` bytes has a first line that goes on behind them. -/
theorem lineLength_of_take {s : Bytes} {n : ℕ} (h : newline ∉ s.take n) (hn : n ≤ s.length) :
    lineLength s = n + lineLength (s.drop n) := by
  have hl := lineLength_append (b := s.drop n) h
  rwa [List.take_append_drop, List.length_take, min_eq_left hn] at hl

/-- The body of a line that goes on behind the bound is over-long. -/
theorem maxLineLen_lt_body {s : Bytes} (h : newline ∉ s.take (maxLineLen + 1))
    (hlen : maxLineLen < s.length) : maxLineLen < (lineBody (s.take (lineLength s))).length := by
  rcases newline_cases s with ⟨body, rest, hb, rfl⟩ | hs
  · have hl := lineLength_of_take h hlen
    rw [lineLength_append_newline hb] at hl
    rw [lineLength_append_newline hb, take_line, lineBody_append_newline]
    by_contra hle
    have hmem : newline ∈ (body ++ newline :: rest).take (maxLineLen + 1) := by
      rw [List.take_append, List.mem_append]
      refine .inr ?_
      obtain ⟨k, hk⟩ : ∃ k, maxLineLen + 1 - body.length = k + 1 := ⟨maxLineLen - body.length, by omega⟩
      rw [hk, List.take_succ_cons]
      exact List.mem_cons_self
    exact h hmem
  · rwa [lineLength_of_notMem hs, List.take_length, lineBody_of_notMem hs]

/-- **One call of `read_bounded_line`** takes the first line of the stream. -/
theorem readBoundedChunks_eq (chunks : List Bytes) :
    (readBoundedChunks chunks).1 = boundedLine (chunks.flatten.take (lineLength chunks.flatten)) ∧
    (readBoundedChunks chunks).2.flatten = chunks.flatten.drop (lineLength chunks.flatten) := by
  obtain ⟨hbuf, hrest⟩ := takeReadUntil_eq (maxLineLen + 1) chunks
  obtain ⟨hdrop, hafter⟩ := drainLine_eq (takeReadUntil (maxLineLen + 1) chunks).2
  unfold readBoundedChunks
  generalize takeReadUntil (maxLineLen + 1) chunks = t at hbuf hrest hdrop hafter ⊢
  obtain ⟨buf, chunks'⟩ := t
  dsimp only at hbuf hrest hdrop hafter ⊢
  rw [hrest] at hdrop hafter
  generalize chunks.flatten = s at hbuf hrest hdrop hafter ⊢
  rcases line_cases s with ⟨body, rest, hb, hle, rfl⟩ | ⟨hs, hle⟩ | ⟨hs, hlt⟩
  · rw [lineLength_append_newline hb, min_eq_right (by omega)] at hbuf hrest
    rw [take_line] at hbuf
    rw [if_pos (.inr (by rw [hbuf, List.getLast?_concat])), lineLength_append_newline hb, take_line,
      boundedLine, lineBody_append_newline, decide_eq_false (by omega), if_neg (by omega), hbuf]
    exact ⟨rfl, hrest⟩
  · rw [lineLength_of_notMem hs, min_eq_right (by omega)] at hbuf hrest
    rw [List.take_length] at hbuf
    rw [if_pos (.inl (by rw [hbuf]; exact hle)), lineLength_of_notMem hs, List.take_length,
      boundedLine, lineBody_of_notMem hs, decide_eq_false (by omega), if_neg (by omega), hbuf]
    exact ⟨rfl, hrest⟩
  · -- the drained part and the part read before it make up the line
    have hl := lineLength_of_take hs hlt
    have hbody := maxLineLen_lt_body hs hlt
    rw [min_eq_left (by omega)] at hbuf hdrop hafter
    have hblen : buf.length = maxLineLen + 1 := by
      rw [hbuf, List.length_take]
      omega
    have hcond : ¬ (buf.length ≤ maxLineLen ∨ buf.getLast? = some newline) := by
      rintro (h | h)
      · omega
      · exact getLast?_ne_newline (hbuf ▸ hs) h
    have hlen : (s.take (lineLength s)).length =
        buf.length + lineLength (s.drop (maxLineLen + 1)) := by
      rw [List.length_take, min_eq_left (lineLength_le s), hblen, hl]
    have hkept : buf.take maxLineLen = (s.take (lineLength s)).take maxLineLen := by
      rw [hbuf, List.take_take, List.take_take, min_eq_left (by omega), min_eq_left (by omega)]
    rw [if_neg hcond, hdrop, boundedLine, decide_eq_true hbody, if_pos hbody, hlen, hkept, hafter,
      List.drop_drop, hl]
    exact ⟨rfl, rfl⟩

/-! ### The lines of a stream -/

theorem streamLines_append_newline {body : Bytes} (h : newline ∉ body) (rest : Bytes) :
    streamLines (body ++ newline :: rest) = (body ++ [newline]) :: streamLines rest := by
  induction body with
  | nil => rw [List.nil_append, streamLines, if_pos rfl, List.nil_append]
  | cons b body ih =>
    rw [List.mem_cons, not_or] at h
    rw [List.cons_append, streamLines, if_neg (Ne.symm h.1), ih h.2, List.cons_append]

theorem streamLines_of_notMem {s : Bytes} (h : newline ∉ s) (hs : s ≠ []) : streamLines s = [s] := by
  induction s with
  | nil => exact absurd rfl hs
  | cons b s ih =>
    rw [List.mem_cons, not_or] at h
    rw [streamLines, if_neg (Ne.symm h.1)]
    by_cases hnil : s = []
    · rw [hnil, streamLines]
    · rw [ih h.2 hnil]

/-- The first of the lines is the first line. -/
theorem streamLines_eq {s : Bytes} (hs : s ≠ []) :
    streamLines s = s.take (lineLength s) :: streamLines (s.drop (lineLength s)) := by
  rcases newline_cases s with ⟨body, rest, hb, rfl⟩ | h
  · rw [streamLines_append_newline hb, lineLength_append_newline hb, take_line, drop_line]
  · rw [streamLines_of_notMem h hs, lineLength_of_notMem h, List.take_length, List.drop_length,
      streamLines]

theorem streamLines_eq_nil {s : Bytes} : streamLines s = [] ↔ s = [] := by
  constructor
  · intro h
    by_contra hs
    rw [streamLines_eq hs] at h
    cases h
  · rintro rfl
    rfl

/-- The lines of a stream are what they should be. -/
theorem linesOf_streamLines (s : Bytes) : LinesOf s (streamLines s) := by
  induction hn : s.length using Nat.strong_induction_on generalizing s with
  | _ n ih =>
    rcases newline_cases s with ⟨body, rest, hb, rfl⟩ | h
    · have hlt : rest.length < n := by
        rw [← hn, List.length_append, List.length_cons]
        omega
      obtain ⟨hflat, hne, hin, hend⟩ := ih _ hlt rest rfl
      rw [streamLines_append_newline hb]
      refine ⟨by simp [hflat], fun line hl => ?_, fun line hl => ?_, fun line hl => ?_⟩
      · rcases List.mem_cons.mp hl with rfl | hl
        · simp
        · exact hne line hl
      · rcases List.mem_cons.mp hl with rfl | hl
        · rwa [List.dropLast_concat]
        · exact hin line hl
      · cases hrest : streamLines rest with
        | nil =>
          rw [hrest] at hl
          simp at hl
        | cons l ls =>
          rw [hrest, List.dropLast_cons_cons] at hl
          rcases List.mem_cons.mp hl with rfl | hl
          · exact List.getLast?_concat
          · exact hend line (hrest ▸ hl)
    · by_cases hs : s = []
      · subst hs
        exact ⟨rfl, by simp [streamLines], by simp [streamLines], by simp [streamLines]⟩
      · rw [streamLines_of_notMem h hs]
        refine ⟨by simp, by simpa using hs, fun line hl => ?_, by simp⟩
        obtain rfl := List.mem_singleton.mp hl
        exact fun hm => h (List.dropLast_subset _ hm)

/-! ### All calls -/

namespace Reader

variable (reader : Reader)

/-- The reader behind `k` calls of `read_bounded_line`. -/
def afterCalls : ℕ → Reader → Reader
  | 0, reader => reader
  | k + 1, reader => afterCalls k reader.readBoundedLine.2

theorem readBoundedLine_eq : reader.readBoundedLine.1 =
      boundedLine (reader.bytes.take (lineLength reader.bytes)) ∧
    reader.readBoundedLine.2.bytes = reader.bytes.drop (lineLength reader.bytes) :=
  readBoundedChunks_eq reader.chunks

theorem afterCalls_succ (k : ℕ) :
    reader.afterCalls (k + 1) = (reader.afterCalls k).readBoundedLine.2 := by
  induction k generalizing reader with
  | zero => rfl
  | succ k ih => exact ih reader.readBoundedLine.2

/-- Each call leaves the lines behind the first. -/
theorem streamLines_afterCalls (k : ℕ) :
    streamLines (reader.afterCalls k).bytes = (streamLines reader.bytes).drop k := by
  induction k with
  | zero => rfl
  | succ k ih =>
    rw [afterCalls_succ, (reader.afterCalls k).readBoundedLine_eq.2, ← List.drop_drop, ← ih]
    by_cases hs : (reader.afterCalls k).bytes = []
    · rw [hs]
      rfl
    · rw [streamLines_eq hs]
      rfl

/-- The call that meets the line `line`. -/
theorem readBoundedLine_of_line {k : ℕ} {line : Bytes}
    (h : (streamLines reader.bytes)[k]? = some line) :
    (reader.afterCalls k).readBoundedLine.1 = boundedLine line ∧
    (reader.afterCalls k).bytes = line ++ (reader.afterCalls (k + 1)).bytes := by
  have hdrop := reader.streamLines_afterCalls k
  rw [List.drop_eq_getElem?_toList_append, h] at hdrop
  have hs : (reader.afterCalls k).bytes ≠ [] := by
    intro hnil
    rw [hnil] at hdrop
    cases hdrop
  rw [streamLines_eq hs] at hdrop
  obtain ⟨hline, -⟩ := List.cons.inj hdrop
  obtain ⟨h1, h2⟩ := (reader.afterCalls k).readBoundedLine_eq
  rw [afterCalls_succ, h1, h2, hline]
  refine ⟨rfl, ?_⟩
  rw [← hline, List.take_append_drop]

/-- A call at the end of the file. -/
theorem readBoundedLine_of_end (h : reader.bytes = []) :
    reader.readBoundedLine.1 = ⟨0, false, []⟩ := by
  rw [reader.readBoundedLine_eq.1, h]
  rfl

/-- **Bounded line reading splits the stream exactly.** The calls of `read_bounded_line` take the lines of
the stream one after the other. A call consumes its line and reports the length; it is truncated exactly when
the line without its newline is longer than `maxLineLen`, and keeps the first `maxLineLen` bytes then, the
whole line otherwise. Behind the last line, and only there, the calls return `(0, false)`. None of this depends
on the chunks. -/
theorem readBoundedLine_splits (reader : Reader) :
    LinesOf reader.bytes (streamLines reader.bytes) ∧
    (∀ (k : ℕ) (line : Bytes), (streamLines reader.bytes)[k]? = some line →
      (reader.afterCalls k).bytes = line ++ (reader.afterCalls (k + 1)).bytes ∧
      (reader.afterCalls k).readBoundedLine.1.read = line.length ∧
      ((reader.afterCalls k).readBoundedLine.1.truncated = true ↔
        maxLineLen < (lineBody line).length) ∧
      ((reader.afterCalls k).readBoundedLine.1.truncated = true →
        (reader.afterCalls k).readBoundedLine.1.buf = line.take maxLineLen) ∧
      ((reader.afterCalls k).readBoundedLine.1.truncated = false →
        (reader.afterCalls k).readBoundedLine.1.buf = line)) ∧
    (∀ k : ℕ, (streamLines reader.bytes).length ≤ k →
      (reader.afterCalls k).readBoundedLine.1 = ⟨0, false, []⟩) ∧
    (∀ k : ℕ, (reader.afterCalls k).readBoundedLine.1.read = 0 →
      (reader.afterCalls k).bytes = [] ∧ (streamLines reader.bytes).length ≤ k) ∧
    (∀ reader' : Reader, reader'.bytes = reader.bytes → ∀ k : ℕ,
      (reader'.afterCalls k).readBoundedLine.1 = (reader.afterCalls k).readBoundedLine.1) := by
  have hend : ∀ (reader : Reader) (k : ℕ), (streamLines reader.bytes).length ≤ k →
      (reader.afterCalls k).readBoundedLine.1 = ⟨0, false, []⟩ := by
    intro reader k hk
    refine readBoundedLine_of_end _ (streamLines_eq_nil.mp ?_)
    rw [streamLines_afterCalls]
    exact List.drop_eq_nil_of_le hk
  refine ⟨linesOf_streamLines _, fun k line h => ?_, hend reader, fun k h0 => ?_,
    fun reader' hbytes k => ?_⟩
  · obtain ⟨hcall, hbytes⟩ := reader.readBoundedLine_of_line h
    rw [hcall]
    refine ⟨hbytes, rfl, decide_eq_true_iff, fun ht => ?_, fun ht => ?_⟩
    · exact if_pos (of_decide_eq_true ht)
    · exact if_neg (of_decide_eq_false ht)
  · by_contra hne
    have hlt : k < (streamLines reader.bytes).length := by
      by_contra hk
      refine hne ⟨streamLines_eq_nil.mp ?_, by omega⟩
      rw [streamLines_afterCalls]
      exact List.drop_eq_nil_of_le (by omega)
    have hget := List.getElem?_eq_getElem hlt
    have hcall := (reader.readBoundedLine_of_line hget).1
    rw [hcall] at h0
    exact (linesOf_streamLines reader.bytes).ne_nil _ (List.getElem_mem hlt)
      (List.length_eq_zero_iff.mp h0)
  · cases hget : (streamLines reader.bytes)[k]? with
    | none =>
      have hk := List.getElem?_eq_none_iff.mp hget
      rw [hend reader k hk, hend reader' k (hbytes ▸ hk)]
    | some line =>
      rw [(reader.readBoundedLine_of_line hget).1,
        (reader'.readBoundedLine_of_line (hbytes ▸ hget)).1]

/-- The lines of a file, as its loaders see them. -/
theorem lines_eq : reader.lines = (streamLines reader.bytes).map boundedLine := by
  have hall : ∀ (n : ℕ) (reader : Reader), reader.bytes.length < n →
      reader.linesUpTo n = (streamLines reader.bytes).map boundedLine := by
    intro n
    induction n with
    | zero => intro reader h; omega
    | succ n ih =>
      intro reader hn
      obtain ⟨h1, h2⟩ := reader.readBoundedLine_eq
      unfold linesUpTo
      dsimp only
      by_cases hs : reader.bytes = []
      · rw [reader.readBoundedLine_of_end hs, if_pos rfl, hs]
        rfl
      · have hpos : 0 < (reader.bytes.take (lineLength reader.bytes)).length := by
          have hne := (linesOf_streamLines reader.bytes).ne_nil
            (reader.bytes.take (lineLength reader.bytes)) (by rw [streamLines_eq hs]; simp)
          exact List.length_pos_iff.mpr hne
        rw [List.length_take] at hpos
        have hrest : reader.readBoundedLine.2.bytes.length < n := by
          rw [h2, List.length_drop]
          omega
        have hread : reader.readBoundedLine.1.read ≠ 0 := by
          rw [h1]
          simp only [boundedLine, List.length_take]
          omega
        rw [if_neg hread, ih _ hrest, h1, h2, streamLines_eq hs, List.map_cons]
  exact hall _ reader (Nat.lt_succ_self _)

end Reader

end RsProperties
