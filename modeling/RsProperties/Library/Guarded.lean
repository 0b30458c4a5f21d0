import RsProperties.Library.Memory
import RsProperties.Library.Utf8

/-!
# Computations that may crash

Code over untrusted memory, written with everything that could stop it: a load outside the mapping, an index
out of range, an arithmetic overflow, a failed assertion, a loop that does not end. A `Prog` either crashes or
returns; it also writes a log and counts the objects it visits.

`Runs x y n` says that `x` never crashes, whatever has happened before, that it returns and logs what the
crash-free computation `y` does, and that it visits at most `n` objects. The rules follow the code: a sequence
runs if its parts do, and adds up their visits. `Yields` is the same for code that may fail with a typed error.
-/

namespace Guarded

open ByteMem

/-- What stops a program. -/
inductive Crash
  | unmapped
  | index
  | overflow
  | expect
  | diverged
  deriving DecidableEq, Repr

/-- The log so far, and the objects visited. -/
structure Trace (W V : Type) where
  log : List W
  visits : List V

/-- Programs with a log of `W` and visits of `V`. -/
abbrev Prog (W V : Type) := StateT (Trace W V) (Except Crash)

variable {W V α β ε : Type}

def crash (c : Crash) : Prog W V α := fun _ => .error c

def visit (v : V) : Prog W V Unit := fun t => .ok ((), { t with visits := t.visits ++ [v] })

def write (w : W) : Prog W V Unit := fun t => .ok ((), { t with log := t.log ++ [w] })

/-! ### Programs that run -/

/-- The program runs like the crash-free computation and visits at most `n` objects. -/
def Runs (x : Prog W V α) (y : StateM (List W) α) (n : ℕ) : Prop :=
  ∀ t : Trace W V, ∃ visits, visits.length ≤ n ∧
    x t = .ok ((y.run t.log).1, ⟨(y.run t.log).2, t.visits ++ visits⟩)

theorem Runs.mono {x : Prog W V α} {y : StateM (List W) α} {m n : ℕ} (h : Runs x y m) (hmn : m ≤ n) :
    Runs x y n := fun t => by
  obtain ⟨visits, hle, heq⟩ := h t
  exact ⟨visits, hle.trans hmn, heq⟩

theorem runs_pure (a : α) : Runs (pure a : Prog W V α) (pure a) 0 := fun t =>
  ⟨[], le_rfl, by rw [List.append_nil]; rfl⟩

theorem runs_visit (v : V) : Runs (visit v : Prog W V Unit) (pure ()) 1 := fun _ => ⟨[v], le_rfl, rfl⟩

theorem runs_write (w : W) : Runs (write w : Prog W V Unit) (modify (· ++ [w])) 0 := fun t =>
  ⟨[], le_rfl, by rw [List.append_nil]; rfl⟩

/-- **The sequence rule**, for the values the first step can return. -/
theorem Runs.bind_of {x : Prog W V α} {y : StateM (List W) α} {f : α → Prog W V β}
    {g : α → StateM (List W) β} {m n : ℕ} (hx : Runs x y m)
    (hf : ∀ log, Runs (f (y.run log).1) (g (y.run log).1) n) :
    Runs (x >>= f) (y >>= g) (m + n) := fun t => by
  obtain ⟨vs, hvs, hxt⟩ := hx t
  obtain ⟨ws, hws, hft⟩ := hf t.log ⟨(y.run t.log).2, t.visits ++ vs⟩
  refine ⟨vs ++ ws, by simpa using Nat.add_le_add hvs hws, ?_⟩
  have hrun : (x >>= f) t = f (y.run t.log).1 ⟨(y.run t.log).2, t.visits ++ vs⟩ := by
    simp only [Bind.bind, StateT.bind, Except.bind, hxt]
  rw [hrun, hft, List.append_assoc]
  rfl

theorem Runs.bind {x : Prog W V α} {y : StateM (List W) α} {f : α → Prog W V β}
    {g : α → StateM (List W) β} {m n : ℕ} (hx : Runs x y m) (hf : ∀ a, Runs (f a) (g a) n) :
    Runs (x >>= f) (y >>= g) (m + n) := hx.bind_of fun _ => hf _

/-- The sequence rule behind a step that visits nothing. -/
theorem Runs.step {x : Prog W V α} {y : StateM (List W) α} {f : α → Prog W V β}
    {g : α → StateM (List W) β} {n : ℕ} (hx : Runs x y 0) (hf : ∀ a, Runs (f a) (g a) n) :
    Runs (x >>= f) (y >>= g) n := (hx.bind hf).mono (Nat.zero_add n).le

/-- The sequence rule behind a value that is known. -/
theorem Runs.bind_pure {x : Prog W V α} {f : α → Prog W V β} {y : StateM (List W) β} {a : α} {m n : ℕ}
    (hx : Runs x (pure a) m) (hf : Runs (f a) y n) : Runs (x >>= f) y (m + n) := fun t => by
  obtain ⟨vs, hvs, hxt⟩ := hx t
  obtain ⟨ws, hws, hft⟩ := hf ⟨t.log, t.visits ++ vs⟩
  refine ⟨vs ++ ws, by simpa using Nat.add_le_add hvs hws, ?_⟩
  have hrun : (x >>= f) t = f a ⟨t.log, t.visits ++ vs⟩ := by
    simp only [Bind.bind, StateT.bind, Except.bind, hxt]
    rfl
  rw [hrun, hft, List.append_assoc]

/-- Behind a known value and no visits. -/
theorem Runs.seq {x : Prog W V α} {f : α → Prog W V β} {y : StateM (List W) β} {a : α} {n : ℕ}
    (hx : Runs x (pure a) 0) (hf : Runs (f a) y n) : Runs (x >>= f) y n :=
  (hx.bind_pure hf).mono (Nat.zero_add n).le

/-- The sequence rule with a further state. -/
theorem Runs.state_bind {σ : Type} {x : StateT σ (Prog W V) α} {y : StateT σ (StateM (List W)) α}
    {f : α → StateT σ (Prog W V) β} {g : α → StateT σ (StateM (List W)) β} {s : σ} {m n : ℕ}
    (hx : Runs (x.run s) (y.run s) m) (hf : ∀ a s', Runs ((f a).run s') ((g a).run s') n) :
    Runs ((x >>= f).run s) ((y >>= g).run s) (m + n) :=
  hx.bind (f := fun p : α × σ => (f p.1).run p.2) (g := fun p : α × σ => (g p.1).run p.2)
    fun p => hf p.1 p.2

/-- Behind a step that leaves a further state alone. -/
theorem Runs.state_seq {σ : Type} {x : Prog W V α} {a : α} {f : α → StateT σ (Prog W V) β} {s : σ}
    {y : StateM (List W) (β × σ)} {n : ℕ} (hx : Runs x (pure a) 0) (hf : Runs ((f a).run s) y n) :
    Runs (((liftM x : StateT σ (Prog W V) α) >>= f).run s) y n := by
  have hlift : Runs (x >>= fun a => pure (a, s)) (pure (a, s)) 0 := hx.seq (runs_pure (a, s))
  exact hlift.seq (f := fun p : α × σ => (f p.1).run p.2) hf

/-! ### Typed errors -/

/-- The program returns the given value or typed error, and visits at most `n` objects. -/
def Yields (x : ExceptT ε (Prog W V) α) (v : Except ε α) (n : ℕ) : Prop := Runs x.run (pure v) n

theorem Yields.mono {x : ExceptT ε (Prog W V) α} {v : Except ε α} {m n : ℕ} (h : Yields x v m)
    (hmn : m ≤ n) : Yields x v n := Runs.mono h hmn

theorem yields_pure (a : α) : Yields (pure a : ExceptT ε (Prog W V) α) (.ok a) 0 := runs_pure _

theorem yields_throw (e : ε) : Yields (throw e : ExceptT ε (Prog W V) α) (.error e) 0 := runs_pure _

/-- A check without a load. -/
def check (x : Except ε α) : ExceptT ε (Prog W V) α := ExceptT.mk (pure x)

theorem yields_check (x : Except ε α) : Yields (check x : ExceptT ε (Prog W V) α) x 0 := runs_pure _

/-- A program without a typed error. -/
theorem Runs.yields {x : Prog W V α} {a : α} {n : ℕ} (h : Runs x (pure a) n) :
    Yields (ExceptT.lift x : ExceptT ε (Prog W V) α) (.ok a) n := by
  have hbind := h.bind_pure (f := fun a => pure (Except.ok a : Except ε α)) (runs_pure _)
  exact hbind

/-- **The sequence rule for typed errors.** -/
theorem Yields.bind {x : ExceptT ε (Prog W V) α} {v : Except ε α} {f : α → ExceptT ε (Prog W V) β}
    {w : α → Except ε β} {m n : ℕ} (hx : Yields x v m) (hf : ∀ a, v = .ok a → Yields (f a) (w a) n) :
    Yields (x >>= f) (v >>= w) (m + n) := by
  cases v with
  | ok a => exact Runs.bind_pure hx (hf a rfl)
  | error e =>
    have herr : Runs (x >>= f).run (pure (Except.error e : Except ε β)) (m + 0) :=
      Runs.bind_pure hx (runs_pure _)
    exact herr.mono (Nat.add_le_add_left (Nat.zero_le n) m)

/-- Behind a step that visits nothing. -/
theorem Yields.seq {x : ExceptT ε (Prog W V) α} {v : Except ε α} {f : α → ExceptT ε (Prog W V) β}
    {w : α → Except ε β} {n : ℕ} (hx : Yields x v 0) (hf : ∀ a, v = .ok a → Yields (f a) (w a) n) :
    Yields (x >>= f) (v >>= w) n :=
  (hx.bind hf).mono (Nat.zero_add n).le

theorem Yields.map {x : ExceptT ε (Prog W V) α} {v : Except ε α} {f : α → β} {n : ℕ} (hx : Yields x v n) :
    Yields (f <$> x) (f <$> v) n := by
  rw [map_eq_pure_bind, map_eq_pure_bind]
  exact hx.bind fun a _ => yields_pure (f a)

/-- Behind a step whose typed error is handled. -/
theorem Yields.handle {x : ExceptT ε (Prog W V) α} {v : Except ε α} {f : Except ε α → Prog W V β}
    {y : StateM (List W) β} {n : ℕ} (hx : Yields x v 0) (hf : Runs (f v) y n) :
    Runs (x.run >>= f) y n := Runs.seq hx hf

/-- Behind a step without a typed error. -/
theorem Runs.lift_bind {x : Prog W V α} {a : α} {f : α → ExceptT ε (Prog W V) β}
    {y : StateM (List W) (Except ε β)} {m n : ℕ} (hx : Runs x (pure a) m) (hf : Runs (f a).run y n) :
    Runs ((liftM x : ExceptT ε (Prog W V) α) >>= f).run y (m + n) :=
  Runs.bind_pure (a := Except.ok a) hx.yields hf

theorem Runs.lift_seq {x : Prog W V α} {a : α} {f : α → ExceptT ε (Prog W V) β}
    {y : StateM (List W) (Except ε β)} {n : ℕ} (hx : Runs x (pure a) 0) (hf : Runs (f a).run y n) :
    Runs ((liftM x : ExceptT ε (Prog W V) α) >>= f).run y n :=
  (hx.lift_bind hf).mono (Nat.zero_add n).le

theorem Runs.yields_seq {x : Prog W V α} {a : α} {f : α → ExceptT ε (Prog W V) β} {v : Except ε β} {n : ℕ}
    (hx : Runs x (pure a) 0) (hf : Yields (f a) v n) :
    Yields ((liftM x : ExceptT ε (Prog W V) α) >>= f) v n := hx.lift_seq hf

/-- Behind a visit. -/
theorem yields_visit_seq {v : V} {f : Unit → ExceptT ε (Prog W V) β} {w : Except ε β} {n : ℕ}
    (hf : Yields (f ()) w n) :
    Yields ((liftM (visit v : Prog W V Unit) : ExceptT ε (Prog W V) Unit) >>= f) w (n + 1) :=
  Runs.mono ((runs_visit v).lift_bind hf) (Nat.add_comm 1 n).le

/-- The sequence rule when both sides log and may fail. -/
theorem Runs.bind_except {x : ExceptT ε (Prog W V) α} {y : ExceptT ε (StateM (List W)) α}
    {f : α → ExceptT ε (Prog W V) β} {g : α → ExceptT ε (StateM (List W)) β} {m n : ℕ}
    (hx : Runs x.run y.run m) (hf : ∀ a, Runs (f a).run (g a).run n) :
    Runs (x >>= f).run (y >>= g).run (m + n) := by
  simp only [ExceptT.run_bind]
  refine hx.bind fun r => ?_
  cases r with
  | ok a => exact hf a
  | error e => exact (runs_pure _).mono (Nat.zero_le n)

/-! ### Arithmetic and indexing -/

/-- Addition of machine words of the given largest value. -/
def addWord (top a b : ℕ) : Prog W V ℕ := if top < a + b then crash .overflow else pure (a + b)

def subWord (a b : ℕ) : Prog W V ℕ := if a < b then crash .overflow else pure (a - b)

/-- `l[i]`. -/
def index (l : List α) (i : ℕ) : Prog W V α :=
  match l[i]? with
  | some a => pure a
  | none => crash .index

/-- `&l[..n]`. -/
def sliceTo (l : List α) (n : ℕ) : Prog W V (List α) :=
  if n ≤ l.length then pure (l.take n) else crash .index

/-- `&l[n..]`. -/
def sliceFrom (l : List α) (n : ℕ) : Prog W V (List α) :=
  if n ≤ l.length then pure (l.drop n) else crash .index

/-- `&s[..n]` of a string: the cut has to be a character boundary. -/
def strSliceTo (s : Bytes) (n : ℕ) : Prog W V Bytes :=
  if n ≤ s.length ∧ Utf8.charBoundary s n = true then pure (s.take n) else crash .index

/-- `&s[n..]` of a string. -/
def strSliceFrom (s : Bytes) (n : ℕ) : Prog W V Bytes :=
  if n ≤ s.length ∧ Utf8.charBoundary s n = true then pure (s.drop n) else crash .index

/-- `x.expect(..)`. -/
def expect (x : Except ε α) : Prog W V α :=
  match x with
  | .ok a => pure a
  | .error _ => crash .expect

theorem runs_addWord {top a b : ℕ} (h : a + b ≤ top) :
    Runs (addWord top a b : Prog W V ℕ) (pure (a + b)) 0 := by
  rw [addWord, if_neg (Nat.not_lt.mpr h)]
  exact runs_pure _

theorem runs_subWord {a b : ℕ} (h : b ≤ a) : Runs (subWord a b : Prog W V ℕ) (pure (a - b)) 0 := by
  rw [subWord, if_neg (Nat.not_lt.mpr h)]
  exact runs_pure _

theorem runs_index {l : List α} {i : ℕ} {a : α} (h : l[i]? = some a) :
    Runs (index l i : Prog W V α) (pure a) 0 := by
  rw [index, h]
  exact runs_pure _

theorem runs_sliceTo {l : List α} {n : ℕ} (h : n ≤ l.length) :
    Runs (sliceTo l n : Prog W V (List α)) (pure (l.take n)) 0 := by
  rw [sliceTo, if_pos h]
  exact runs_pure _

theorem runs_strSliceTo_length (s : Bytes) :
    Runs (strSliceTo s s.length : Prog W V Bytes) (pure s) 0 := by
  have hend : Utf8.charBoundary s s.length = true := by simp [Utf8.charBoundary]
  rw [strSliceTo, if_pos ⟨le_rfl, hend⟩, List.take_length]
  exact runs_pure _

/-- A string may be cut before an ASCII byte, -/
theorem runs_strSliceTo {a b : Bytes} {c : UInt8} (hc : c.toNat < 0x80) :
    Runs (strSliceTo (a ++ c :: b) a.length : Prog W V Bytes) (pure a) 0 := by
  rw [strSliceTo, if_pos ⟨by simp, Utf8.charBoundary_before hc⟩, List.take_left]
  exact runs_pure _

/-- and behind it. -/
theorem runs_strSliceFrom {a b : Bytes} {c : UInt8} (hb : Utf8.valid b = true) :
    Runs (strSliceFrom (a ++ c :: b) (a.length + 1) : Prog W V Bytes) (pure b) 0 := by
  have hcut : a ++ c :: b = (a ++ [c]) ++ b := by simp
  have hend : a.length + 1 = (a ++ [c]).length := by simp
  rw [hcut, hend, strSliceFrom, if_pos ⟨by simp, Utf8.charBoundary_of_valid hb⟩, List.drop_left]
  exact runs_pure _

theorem runs_expect {x : Except ε α} {a : α} (h : x = .ok a) :
    Runs (expect x : Prog W V α) (pure a) 0 := by
  rw [h]
  exact runs_pure _

/-! ### Loads from a mapping of `size` bytes -/

section Loads

variable (m : Mem) (size : ℕ)

def load8 (a : ℕ) : Prog W V UInt8 := if a < size then pure (m a) else crash .unmapped

def load32 (a : ℕ) : Prog W V ℕ := do
  let b0 ← load8 m size a
  let b1 ← load8 m size (a + 1)
  let b2 ← load8 m size (a + 2)
  let b3 ← load8 m size (a + 3)
  return ofU32le [b0, b1, b2, b3]

def loadBytes (a : ℕ) : ℕ → Prog W V Bytes
  | 0 => return []
  | n + 1 => do
    let b ← load8 m size a
    let bs ← loadBytes (a + 1) n
    return b :: bs

/-- The bytes up to the first NUL among `n`. -/
def scanNul (a : ℕ) : ℕ → Prog W V (Option Bytes)
  | 0 => return none
  | n + 1 => do
    let b ← load8 m size a
    if b = 0 then return some []
    else do
      let rest ← scanNul (a + 1) n
      return rest.map (b :: ·)

/-- Consecutive words. -/
def loadWords (a : ℕ) : ℕ → Prog W V (List ℕ)
  | 0 => return []
  | n + 1 => do
    let v ← load32 m size a
    let vs ← loadWords (a + 4) n
    return v :: vs

variable {m size}

theorem runs_load8 {a : ℕ} (h : a < size) : Runs (load8 m size a : Prog W V UInt8) (pure (m a)) 0 := by
  rw [load8, if_pos h]
  exact runs_pure _

theorem runs_load32 {a : ℕ} (h : a + 4 ≤ size) :
    Runs (load32 m size a : Prog W V ℕ) (pure (readU32 m a)) 0 :=
  (runs_load8 (a := a) (by omega)).seq ((runs_load8 (a := a + 1) (by omega)).seq
    ((runs_load8 (a := a + 2) (by omega)).seq ((runs_load8 (a := a + 3) (by omega)).seq
      (runs_pure _))))

theorem runs_loadBytes {a n : ℕ} (h : a + n ≤ size) :
    Runs (loadBytes m size a n : Prog W V Bytes) (pure (slice m a n)) 0 := by
  induction n generalizing a with
  | zero => exact runs_pure _
  | succ n ih =>
    rw [slice_succ]
    exact (runs_load8 (a := a) (by omega)).seq ((ih (a := a + 1) (by omega)).seq (runs_pure _))

theorem runs_scanNul {a n : ℕ} (h : a + n ≤ size) :
    Runs (scanNul m size a n : Prog W V (Option Bytes)) (pure (cstr m a n)) 0 := by
  induction n generalizing a with
  | zero => exact runs_pure _
  | succ n ih =>
    rw [cstr]
    refine (runs_load8 (a := a) (by omega)).seq ?_
    split_ifs with h0
    · exact runs_pure _
    · exact (ih (a := a + 1) (by omega)).seq (runs_pure _)

theorem runs_loadWords {a n : ℕ} (h : a + n * 4 ≤ size) :
    Runs (loadWords m size a n : Prog W V (List ℕ))
      (pure ((List.range n).map fun i => readU32 m (a + 4 * i))) 0 := by
  induction n generalizing a with
  | zero => exact runs_pure _
  | succ n ih =>
    have hshift : ((List.range (n + 1)).map fun i => readU32 m (a + 4 * i)) =
        readU32 m a :: (List.range n).map fun i => readU32 m (a + 4 + 4 * i) := by
      rw [List.range_succ_eq_map, List.map_cons, List.map_map]
      refine congrArg _ (List.map_congr_left fun i _ => ?_)
      exact congrArg (readU32 m) (show a + 4 * (i + 1) = a + 4 + 4 * i by omega)
    rw [hshift]
    exact (runs_load32 (a := a) (by omega)).seq ((ih (a := a + 4) (by omega)).seq (runs_pure _))

end Loads

end Guarded
