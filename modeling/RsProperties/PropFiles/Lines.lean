import RsProperties.PropFiles.Text

/-!
# Bounded lines

`read_bounded_line` reads one line of a file with a bound on what it keeps in memory: an over-long line is cut
to its first `maxLineLen` bytes and drained to its newline. The file comes through a `BufRead`; a `Reader` is
what its coming calls of `fill_buf` return.
-/

namespace RsProperties

open ByteMem

def newline : UInt8 := 10

/-- `MAX_LINE_LEN`. -/
def maxLineLen : ℕ := 64 * 1024

/-- A buffered reader: the chunks still to come. An empty `fill_buf` is the end of the file, so no chunk is
empty. -/
structure Reader where
  chunks : List Bytes
  ne_nil : ∀ c ∈ chunks, c ≠ []

/-- The chunks after `consume` has left `c` of the first one. -/
def pushChunk (c : Bytes) (chunks : List Bytes) : List Bytes := if c = [] then chunks else c :: chunks

/-- `Read::take(limit).read_until(b'\n')`: what was read, and the chunks behind it. -/
def takeReadUntil : ℕ → List Bytes → Bytes × List Bytes
  | _, [] => ([], [])
  | limit, c :: chunks =>
    let available := c.take limit
    match available.findIdx? (· = newline) with
    | some i => (available.take (i + 1), pushChunk (c.drop (i + 1)) chunks)
    | none =>
      -- a used-up limit makes the next `fill_buf` empty
      if limit ≤ c.length then (available, pushChunk (c.drop limit) chunks)
      else
        let (read, chunks) := takeReadUntil (limit - c.length) chunks
        (available ++ read, chunks)

/-- The loop that drains an over-long line: how much it has dropped, and the chunks behind it. -/
def drainLine : List Bytes → ℕ × List Bytes
  | [] => (0, [])
  | c :: chunks =>
    match c.findIdx? (· = newline) with
    | some nl => (nl + 1, pushChunk (c.drop (nl + 1)) chunks)
    | none =>
      let (n, chunks) := drainLine chunks
      (c.length + n, chunks)

/-- What a call of `read_bounded_line` returns, with the buffer it has filled. -/
structure BoundedLine where
  read : ℕ
  truncated : Bool
  buf : Bytes
  deriving DecidableEq, Repr

/-- `read_bounded_line`, on the chunks of a reader. -/
def readBoundedChunks (chunks : List Bytes) : BoundedLine × List Bytes :=
  -- one byte past the bound tells a line of exactly `maxLineLen` bytes from a longer one
  let (buf, chunks) := takeReadUntil (maxLineLen + 1) chunks
  if buf.length ≤ maxLineLen ∨ buf.getLast? = some newline then (⟨buf.length, false, buf⟩, chunks)
  else
    let (dropped, chunks) := drainLine chunks
    (⟨buf.length + dropped, true, buf.take maxLineLen⟩, chunks)

section Chunks

variable {c : Bytes} {chunks : List Bytes}

theorem pushChunk_ne_nil (h : ∀ d ∈ chunks, d ≠ []) : ∀ d ∈ pushChunk c chunks, d ≠ [] := by
  unfold pushChunk
  split_ifs with hc
  · exact h
  · intro d hd
    rcases List.mem_cons.mp hd with rfl | hd
    · exact hc
    · exact h d hd

theorem takeReadUntil_ne_nil {limit : ℕ} (h : ∀ d ∈ chunks, d ≠ []) :
    ∀ d ∈ (takeReadUntil limit chunks).2, d ≠ [] := by
  induction chunks generalizing limit with
  | nil => simp [takeReadUntil]
  | cons c chunks ih =>
    have hrest : ∀ d ∈ chunks, d ≠ [] := fun d hd => h d (List.mem_cons_of_mem _ hd)
    rw [takeReadUntil]
    cases (c.take limit).findIdx? (· = newline) with
    | some i => exact pushChunk_ne_nil hrest
    | none =>
      dsimp only
      split_ifs
      · exact pushChunk_ne_nil hrest
      · exact ih hrest

theorem drainLine_ne_nil (h : ∀ d ∈ chunks, d ≠ []) : ∀ d ∈ (drainLine chunks).2, d ≠ [] := by
  induction chunks with
  | nil => simp [drainLine]
  | cons c chunks ih =>
    have hrest : ∀ d ∈ chunks, d ≠ [] := fun d hd => h d (List.mem_cons_of_mem _ hd)
    rw [drainLine]
    cases c.findIdx? (· = newline) with
    | some nl => exact pushChunk_ne_nil hrest
    | none => exact ih hrest

theorem readBoundedChunks_ne_nil (h : ∀ d ∈ chunks, d ≠ []) :
    ∀ d ∈ (readBoundedChunks chunks).2, d ≠ [] := by
  unfold readBoundedChunks
  dsimp only
  split_ifs
  · exact takeReadUntil_ne_nil h
  · exact drainLine_ne_nil (takeReadUntil_ne_nil h)

end Chunks

namespace Reader

/-- A reader of bytes that all fit its buffer. -/
def ofBytes (bytes : Bytes) : Reader := ⟨pushChunk bytes [], pushChunk_ne_nil (by simp)⟩

def readBoundedLine (reader : Reader) : BoundedLine × Reader :=
  ((readBoundedChunks reader.chunks).1,
    ⟨(readBoundedChunks reader.chunks).2, readBoundedChunks_ne_nil reader.ne_nil⟩)

/-- The bytes still to come. -/
def bytes (reader : Reader) : Bytes := reader.chunks.flatten

/-- The calls of `read_bounded_line` up to the end of the file, at most so many. -/
def linesUpTo : ℕ → Reader → List BoundedLine
  | 0, _ => []
  | n + 1, reader =>
    let (line, reader) := reader.readBoundedLine
    if line.read = 0 then [] else line :: linesUpTo n reader

/-- The lines of a file; each of them takes a byte at least. -/
def lines (reader : Reader) : List BoundedLine := reader.linesUpTo (reader.bytes.length + 1)

-- however the bytes come, the lines are the same
example : (Reader.lines ⟨[[97, 10, 98], [99], [10, 100]], by simp⟩).map BoundedLine.buf =
    [[97, 10], [98, 99, 10], [100]] := by
  decide

end Reader

end RsProperties
