import Mathlib.Data.List.Basic
import Mathlib.Tactic

/-!
# UTF-8 validity

Well-formedness of a byte string as UTF-8, as the finite automaton over the states a
decoder passes through: between characters, or owing some continuation bytes, the first of which
may be restricted (after `0xE0`, `0xED`, `0xF0` and `0xF4`, which rule out overlong forms, surrogates
and code points past `0x10FFFF`).

The structural facts a client needs are about cutting: an ASCII byte is always a character boundary,
so a string is valid when the parts before and after one are, and the other way round
(`valid_append_cons`).
-/

namespace Utf8

/-- The decoder's states: between characters, or owing continuation bytes. -/
inductive State
  | start
  | owe1
  | owe2
  | owe3
  | afterE0
  | afterED
  | afterF0
  | afterF4
  deriving DecidableEq, Repr

/-- The state after the first byte of a character. -/
def lead (b : ℕ) : Option State :=
  if b < 0x80 then some .start
  else if b < 0xC2 then none
  else if b < 0xE0 then some .owe1
  else if b = 0xE0 then some .afterE0
  else if b = 0xED then some .afterED
  else if b < 0xF0 then some .owe2
  else if b = 0xF0 then some .afterF0
  else if b < 0xF4 then some .owe3
  else if b = 0xF4 then some .afterF4
  else none

/-- Accept a continuation byte of the given range. -/
def cont (lo hi : ℕ) (next : State) (b : ℕ) : Option State :=
  if lo ≤ b ∧ b ≤ hi then some next else none

/-- One byte of the automaton. -/
def step (q : State) (b : UInt8) : Option State :=
  match q with
  | .start => lead b.toNat
  | .owe1 => cont 0x80 0xBF .start b.toNat
  | .owe2 => cont 0x80 0xBF .owe1 b.toNat
  | .owe3 => cont 0x80 0xBF .owe2 b.toNat
  | .afterE0 => cont 0xA0 0xBF .owe1 b.toNat
  | .afterED => cont 0x80 0x9F .owe1 b.toNat
  | .afterF0 => cont 0x90 0xBF .owe2 b.toNat
  | .afterF4 => cont 0x80 0x8F .owe2 b.toNat

/-- The automaton over a byte string. -/
def run : State → List UInt8 → Option State
  | q, [] => some q
  | q, b :: bs => (step q b).bind fun q' => run q' bs

/-- The byte string is well-formed UTF-8. -/
def valid (bs : List UInt8) : Bool := run .start bs == some .start

theorem valid_iff {bs : List UInt8} : valid bs = true ↔ run .start bs = some .start := by
  simp [valid]

@[simp]
theorem valid_nil : valid [] = true := rfl

theorem run_append (q : State) (bs cs : List UInt8) :
    run q (bs ++ cs) = (run q bs).bind fun q' => run q' cs := by
  induction bs generalizing q with
  | nil => rfl
  | cons b bs ih =>
    simp only [List.cons_append, run]
    cases step q b with
    | none => rfl
    | some q' => simpa using ih q'

/-- An ASCII byte is only ever read between characters, and leaves the automaton there. -/
theorem step_ascii {q : State} {b : UInt8} (hb : b.toNat < 0x80) :
    step q b = if q = .start then some .start else none := by
  cases q <;> simp [step, lead, cont, hb] <;> omega

/-- A byte that can only start a character is only ever read between characters. -/
theorem step_of_ne_start {q : State} {b : UInt8} (hb : b.toNat < 0x80 ∨ 0xC0 ≤ b.toNat)
    (hq : q ≠ .start) : step q b = none := by
  cases q <;> simp [step, cont] at hq ⊢ <;> omega

/-- **A whole character is bounded on both sides**: a string is valid around one exactly when both
sides are. -/
theorem valid_append_char {bs cs : List UInt8} {b : UInt8} {rest : List UInt8}
    (hb : b.toNat < 0x80 ∨ 0xC0 ≤ b.toNat) (hc : valid (b :: rest) = true) :
    valid (bs ++ (b :: rest ++ cs)) = true ↔ valid bs = true ∧ valid cs = true := by
  rw [valid_iff] at hc
  simp only [valid_iff, run_append]
  cases h : run .start bs with
  | none => simp
  | some q =>
    by_cases hq : q = .start
    · simp [hq, hc]
    · simp [run, step_of_ne_start hb hq, hq]

/-- **An ASCII byte is a character boundary**: a string is valid around one exactly when both
sides are. -/
theorem valid_append_cons {bs cs : List UInt8} {b : UInt8} (hb : b.toNat < 0x80) :
    valid (bs ++ b :: cs) = true ↔ valid bs = true ∧ valid cs = true := by
  simp only [valid_iff, run_append, run, step_ascii hb]
  cases h : run .start bs with
  | none => simp
  | some q => by_cases hq : q = .start <;> simp [hq]

theorem valid_of_ascii {bs : List UInt8} (h : ∀ b ∈ bs, b.toNat < 0x80) : valid bs = true := by
  induction bs with
  | nil => rfl
  | cons b bs ih =>
    have := @valid_append_cons [] bs b (h b (by simp))
    exact this.mpr ⟨rfl, ih fun c hc => h c (by simp [hc])⟩

/-- `is_char_boundary`: an index where a string may be cut. -/
def charBoundary (bs : List UInt8) (n : ℕ) : Bool :=
  n == 0 || match bs[n]? with
    | some b => b.toNat < 0x80 || 0xC0 ≤ b.toNat
    | none => n == bs.length

/-- A string may be cut before an ASCII byte. -/
theorem charBoundary_before {bs cs : List UInt8} {b : UInt8} (hb : b.toNat < 0x80) :
    charBoundary (bs ++ b :: cs) bs.length = true := by
  simp [charBoundary, hb]

/-- A string may be cut before valid text. -/
theorem charBoundary_of_valid {bs cs : List UInt8} (hc : valid cs = true) :
    charBoundary (bs ++ cs) bs.length = true := by
  cases cs with
  | nil => simp [charBoundary]
  | cons c cs =>
    by_cases hlead : c.toNat < 0x80 ∨ 0xC0 ≤ c.toNat
    · rcases hlead with h | h <;> simp [charBoundary, h]
    · have hnone : lead c.toNat = none := by
        rw [lead, if_neg (by omega), if_pos (by omega)]
      simp [valid, run, step, hnone] at hc

-- "é" (two bytes) is accepted, a stray continuation byte and an overlong NUL are not
example : valid [0xC3, 0xA9] = true ∧ valid [0xA9] = false ∧ valid [0xC0, 0x80] = false := by
  decide

end Utf8
