import Mathlib.Data.List.Basic
import Mathlib.Tactic

/-!
# Byte memory

A flat byte-addressed memory `Mem = ℕ → UInt8`, the 32-bit word codec in both byte orders, and
the handful of access functions a C-style storage format is written in: word loads and stores,
byte-string stores, NUL-bounded scans.

Every reasoning step about an update goes through two notions only. `SameOn m m' a b` says that
two memories agree on the addresses `[a, b)`, and `Holds m a bs` says that the bytes `bs` stand at
address `a`. A store is described once, by `holds_writeBytes` (what it puts there) and
`sameOn_writeBytes` (what it leaves alone); reads are functions of the bytes they cover, so each of
them has one congruence lemma over `SameOn`.
-/

namespace ByteMem

/-- Raw bytes. -/
abbrev Bytes := List UInt8

/-- A flat memory: the byte at every address. -/
abbrev Mem := ℕ → UInt8

/-! ### The word codec -/

/-- The byte order of a machine word. -/
inductive ByteOrder
  | little
  | big
  deriving DecidableEq, Repr

/-- The four bytes of a 32-bit word, least significant first. -/
def u32le (n : ℕ) : Bytes :=
  [UInt8.ofNat n, UInt8.ofNat (n / 2 ^ 8), UInt8.ofNat (n / 2 ^ 16), UInt8.ofNat (n / 2 ^ 24)]

/-- The word four little-endian bytes spell. -/
def ofU32le : Bytes → ℕ
  | [a, b, c, d] => a.toNat + 2 ^ 8 * b.toNat + 2 ^ 16 * c.toNat + 2 ^ 24 * d.toNat
  | _ => 0

/-- The four bytes of a word in the given order (`to_ne_bytes` on a machine of that order). -/
def u32Bytes : ByteOrder → ℕ → Bytes
  | .little, n => u32le n
  | .big, n => (u32le n).reverse

/-- The word four bytes spell in the given order (`from_ne_bytes`). -/
def ofU32Bytes : ByteOrder → Bytes → ℕ
  | .little, bs => ofU32le bs
  | .big, bs => ofU32le bs.reverse

@[simp]
theorem length_u32le (n : ℕ) : (u32le n).length = 4 := rfl

@[simp]
theorem length_u32Bytes (o : ByteOrder) (n : ℕ) : (u32Bytes o n).length = 4 := by
  cases o <;> rfl

theorem ofU32le_u32le (n : ℕ) : ofU32le (u32le n) = n % 2 ^ 32 := by
  simp only [u32le, ofU32le, UInt8.toNat_ofNat']
  omega

theorem ofU32le_lt (bs : Bytes) : ofU32le bs < 2 ^ 32 := by
  unfold ofU32le
  split
  · rename_i a b c d
    have ha := a.toNat_lt
    have hb := b.toNat_lt
    have hc := c.toNat_lt
    have hd := d.toNat_lt
    omega
  · decide

theorem u32le_ofU32le {bs : Bytes} (h : bs.length = 4) : u32le (ofU32le bs) = bs := by
  match bs, h with
  | [a, b, c, d], _ =>
    have ha := a.toNat_lt
    have hb := b.toNat_lt
    have hc := c.toNat_lt
    have hd := d.toNat_lt
    simp only [u32le, ofU32le, List.cons.injEq, and_true, ← UInt8.toNat_inj, UInt8.toNat_ofNat']
    omega

theorem ofU32Bytes_u32Bytes (o : ByteOrder) (n : ℕ) :
    ofU32Bytes o (u32Bytes o n) = n % 2 ^ 32 := by
  cases o with
  | little => exact ofU32le_u32le n
  | big => simp only [u32Bytes, ofU32Bytes, List.reverse_reverse, ofU32le_u32le]

theorem u32Bytes_ofU32Bytes (o : ByteOrder) {bs : Bytes} (h : bs.length = 4) :
    u32Bytes o (ofU32Bytes o bs) = bs := by
  cases o with
  | little => exact u32le_ofU32le h
  | big => simp only [u32Bytes, ofU32Bytes, u32le_ofU32le (List.length_reverse.trans h),
      List.reverse_reverse]

theorem ofU32Bytes_lt (o : ByteOrder) (bs : Bytes) : ofU32Bytes o bs < 2 ^ 32 := by
  cases o <;> exact ofU32le_lt _

/-! ### Loads and stores -/

/-- Load a little-endian word. -/
def readU32 (m : Mem) (a : ℕ) : ℕ := ofU32le [m a, m (a + 1), m (a + 2), m (a + 3)]

/-- Store a byte string. -/
def writeBytes (m : Mem) (a : ℕ) (bs : Bytes) : Mem := fun i =>
  if a ≤ i then (bs[i - a]?).getD (m i) else m i

/-- Store a little-endian word. -/
def writeU32 (m : Mem) (a v : ℕ) : Mem := writeBytes m a (u32le v)

/-- Store consecutive little-endian words. -/
def writeWords (m : Mem) (a : ℕ) : List ℕ → Mem
  | [] => m
  | v :: vs => writeWords (writeU32 m a v) (a + 4) vs

/-- The `n` bytes from `a` on. -/
def slice (m : Mem) (a n : ℕ) : Bytes := (List.range n).map fun i => m (a + i)

/-- The bytes from `a` on up to the first NUL, at most `n` of them. -/
def scan (m : Mem) (a : ℕ) : ℕ → Bytes
  | 0 => []
  | n + 1 => if m a = 0 then [] else m a :: scan m (a + 1) n

/-- The NUL-terminated string at `a`, when its terminator lies within `n` bytes. -/
def cstr (m : Mem) (a : ℕ) : ℕ → Option Bytes
  | 0 => none
  | n + 1 => if m a = 0 then some [] else (cstr m (a + 1) n).map (m a :: ·)

@[simp]
theorem length_slice (m : Mem) (a n : ℕ) : (slice m a n).length = n := by simp [slice]

theorem slice_succ (m : Mem) (a n : ℕ) : slice m a (n + 1) = m a :: slice m (a + 1) n := by
  simp only [slice, List.range_succ_eq_map, List.map_cons, List.map_map, Nat.add_zero]
  refine congrArg _ (List.map_congr_left fun i _ => ?_)
  exact congrArg m (by omega)

theorem readU32_lt (m : Mem) (a : ℕ) : readU32 m a < 2 ^ 32 := ofU32le_lt _

/-! ### Agreement of two memories on a range -/

/-- The two memories agree on the addresses `[a, b)`. -/
def SameOn (m m' : Mem) (a b : ℕ) : Prop := ∀ i, a ≤ i → i < b → m i = m' i

theorem SameOn.refl (m : Mem) (a b : ℕ) : SameOn m m a b := fun _ _ _ => rfl

theorem SameOn.symm {m m' : Mem} {a b : ℕ} (h : SameOn m m' a b) : SameOn m' m a b :=
  fun i ha hb => (h i ha hb).symm

theorem SameOn.trans {m m' m'' : Mem} {a b : ℕ} (h : SameOn m m' a b) (h' : SameOn m' m'' a b) :
    SameOn m m'' a b :=
  fun i ha hb => (h i ha hb).trans (h' i ha hb)

theorem SameOn.mono {m m' : Mem} {a b a' b' : ℕ} (h : SameOn m m' a b) (ha : a ≤ a')
    (hb : b' ≤ b) : SameOn m m' a' b' :=
  fun i h1 h2 => h i (ha.trans h1) (lt_of_lt_of_le h2 hb)

theorem writeBytes_of_lt {m : Mem} {a i : ℕ} {bs : Bytes} (h : i < a) :
    writeBytes m a bs i = m i := by
  simp [writeBytes, Nat.not_le.mpr h]

theorem writeBytes_of_le {m : Mem} {a i : ℕ} {bs : Bytes} (h : a + bs.length ≤ i) :
    writeBytes m a bs i = m i := by
  have : bs[i - a]? = none := List.getElem?_eq_none (by omega)
  simp [writeBytes, this]

theorem writeBytes_add {m : Mem} {a i : ℕ} {bs : Bytes} (h : i < bs.length) :
    writeBytes m a bs (a + i) = bs[i] := by
  simp [writeBytes, List.getElem?_eq_getElem h]

/-- A byte string is stored byte by byte. -/
theorem writeBytes_cons (m : Mem) (a : ℕ) (b : UInt8) (bs : Bytes) :
    writeBytes m a (b :: bs) = writeBytes (writeBytes m a [b]) (a + 1) bs := by
  funext i
  rcases lt_trichotomy i a with h | rfl | h
  · rw [writeBytes_of_lt h, writeBytes_of_lt (by omega), writeBytes_of_lt h]
  · rw [writeBytes_of_lt (Nat.lt_succ_self i)]
    simp [writeBytes]
  · obtain ⟨k, rfl⟩ : ∃ k, i = a + 1 + k := ⟨i - (a + 1), by omega⟩
    have h1 : a + 1 + k - a = k + 1 := by omega
    have h2 : a + 1 + k - (a + 1) = k := by omega
    have h0 : writeBytes m a [b] (a + 1 + k) = m (a + 1 + k) :=
      writeBytes_of_le (by rw [List.length_singleton]; omega)
    rw [writeBytes, writeBytes, if_pos (by omega), if_pos (by omega), h1, h2, h0,
      List.getElem?_cons_succ]

@[simp]
theorem writeBytes_nil (m : Mem) (a : ℕ) : writeBytes m a [] = m := by
  funext i
  simp [writeBytes]

theorem writeBytes_append (m : Mem) (a : ℕ) (bs cs : Bytes) :
    writeBytes m a (bs ++ cs) = writeBytes (writeBytes m a bs) (a + bs.length) cs := by
  induction bs generalizing m a with
  | nil => rw [List.nil_append, writeBytes_nil, List.length_nil, Nat.add_zero]
  | cons b bs ih =>
    rw [List.cons_append, writeBytes_cons, ih, writeBytes_cons m a b bs, List.length_cons]
    congr 1
    omega

/-- A store leaves every range it does not meet alone. -/
theorem sameOn_writeBytes {m : Mem} {w a b : ℕ} {bs : Bytes} (h : b ≤ w ∨ w + bs.length ≤ a) :
    SameOn (writeBytes m w bs) m a b := by
  intro i ha hb
  rcases h with h | h
  · exact writeBytes_of_lt (by omega)
  · exact writeBytes_of_le (by omega)

theorem sameOn_writeU32 {m : Mem} {w a b v : ℕ} (h : b ≤ w ∨ w + 4 ≤ a) :
    SameOn (writeU32 m w v) m a b :=
  sameOn_writeBytes (by simpa using h)

theorem readU32_congr {m m' : Mem} {a : ℕ} (h : SameOn m m' a (a + 4)) :
    readU32 m a = readU32 m' a := by
  simp only [readU32, h a (by omega) (by omega), h (a + 1) (by omega) (by omega),
    h (a + 2) (by omega) (by omega), h (a + 3) (by omega) (by omega)]

theorem slice_congr {m m' : Mem} {a n : ℕ} (h : SameOn m m' a (a + n)) :
    slice m a n = slice m' a n := by
  refine List.map_congr_left fun i hi => h _ (by omega) ?_
  have := List.mem_range.mp hi
  omega

theorem readU32_writeU32 (m : Mem) (a v : ℕ) : readU32 (writeU32 m a v) a = v % 2 ^ 32 := by
  have h : ∀ i (hi : i < (u32le v).length), writeU32 m a v (a + i) = (u32le v)[i] :=
    fun i hi => writeBytes_add hi
  have h0 := h 0 (by simp)
  have h1 := h 1 (by simp)
  have h2 := h 2 (by simp)
  have h3 := h 3 (by simp)
  rw [← ofU32le_u32le v]
  simp only [readU32, h1, h2, h3]
  simp only [Nat.add_zero] at h0
  rw [h0]
  rfl

/-- Loading back a stored word. -/
theorem readU32_writeU32_of_lt {m : Mem} {a v : ℕ} (h : v < 2 ^ 32) :
    readU32 (writeU32 m a v) a = v := by
  rw [readU32_writeU32, Nat.mod_eq_of_lt h]

/-- A word load does not see a word store elsewhere. -/
theorem readU32_writeU32_of_disjoint {m : Mem} {a w v : ℕ} (h : a + 4 ≤ w ∨ w + 4 ≤ a) :
    readU32 (writeU32 m w v) a = readU32 m a :=
  readU32_congr (sameOn_writeU32 h)

/-- Storing words leaves every range they do not meet alone. -/
theorem sameOn_writeWords {m : Mem} {w a b : ℕ} {vs : List ℕ} (h : b ≤ w ∨ w + 4 * vs.length ≤ a) :
    SameOn (writeWords m w vs) m a b := by
  induction vs generalizing m w with
  | nil => exact SameOn.refl _ _ _
  | cons v vs ih =>
    rw [List.length_cons] at h
    exact (ih (by omega)).trans (sameOn_writeU32 (by omega))

/-- Loading back one of several stored words. -/
theorem readU32_writeWords {m : Mem} {a : ℕ} {vs : List ℕ} (hv : ∀ v ∈ vs, v < 2 ^ 32) {i : ℕ}
    (hi : i < vs.length) : readU32 (writeWords m a vs) (a + 4 * i) = vs[i] := by
  induction vs generalizing m a i with
  | nil => simp at hi
  | cons v vs ih =>
    cases i with
    | zero =>
      have hsame : SameOn (writeWords (writeU32 m a v) (a + 4) vs) (writeU32 m a v) a (a + 4) :=
        sameOn_writeWords (.inl le_rfl)
      exact (readU32_congr hsame).trans (readU32_writeU32_of_lt (hv v (by simp)))
    | succ i =>
      rw [writeWords, show a + 4 * (i + 1) = a + 4 + 4 * i by omega]
      exact ih (fun v hv' => hv v (by simp [hv'])) (by simpa using hi)

/-! ### Byte strings in memory -/

/-- The bytes `bs` stand at address `a`. -/
def Holds (m : Mem) (a : ℕ) (bs : Bytes) : Prop := ∀ i (h : i < bs.length), m (a + i) = bs[i]

theorem holds_writeBytes (m : Mem) (a : ℕ) (bs : Bytes) : Holds (writeBytes m a bs) a bs :=
  fun _ hi => writeBytes_add hi

theorem Holds.congr {m m' : Mem} {a : ℕ} {bs : Bytes} (h : Holds m a bs)
    (hs : SameOn m m' a (a + bs.length)) : Holds m' a bs :=
  fun i hi => (hs (a + i) (by omega) (by omega)).symm.trans (h i hi)

theorem holds_cons {m : Mem} {a : ℕ} {b : UInt8} {bs : Bytes} :
    Holds m a (b :: bs) ↔ m a = b ∧ Holds m (a + 1) bs := by
  constructor
  · intro h
    refine ⟨h 0 (by simp), fun i hi => ?_⟩
    have := h (i + 1) (by simpa using hi)
    simpa [Nat.add_assoc, Nat.add_comm 1] using this
  · rintro ⟨h0, ht⟩ i hi
    cases i with
    | zero => exact h0
    | succ i =>
      have := ht i (by simpa using hi)
      simpa [Nat.add_assoc, Nat.add_comm 1] using this

theorem holds_append {m : Mem} {a : ℕ} {bs cs : Bytes} :
    Holds m a (bs ++ cs) ↔ Holds m a bs ∧ Holds m (a + bs.length) cs := by
  induction bs generalizing a with
  | nil => simp [Holds]
  | cons b bs ih =>
    rw [List.cons_append, holds_cons, holds_cons, ih, List.length_cons, and_assoc,
      Nat.add_assoc a 1, Nat.add_comm 1]

theorem slice_eq_of_holds {m : Mem} {a : ℕ} {bs : Bytes} (h : Holds m a bs) :
    slice m a bs.length = bs := by
  refine List.ext_getElem (by simp) fun i h1 h2 => ?_
  simp [slice, h i h2]

/-- A terminated string is the slice of its length. -/
theorem slice_of_cstr {m : Mem} {a n : ℕ} {s : Bytes} (h : cstr m a n = some s) :
    slice m a s.length = s := by
  induction n generalizing a s with
  | zero => simp [cstr] at h
  | succ n ih =>
    rw [cstr] at h
    split_ifs at h with h0
    · obtain rfl := Option.some.inj h
      rfl
    · obtain ⟨t, ht, rfl⟩ := Option.map_eq_some_iff.mp h
      rw [List.length_cons, slice_succ, ih ht]

/-- A terminated string lies in the window, and is found in every window it lies in. -/
theorem cstr_eq_some {m : Mem} {a n : ℕ} {s : Bytes} (h : cstr m a n = some s) :
    s.length < n ∧ ∀ k, s.length < k → cstr m a k = some s := by
  induction n generalizing a s with
  | zero => simp [cstr] at h
  | succ n ih =>
    rw [cstr] at h
    split_ifs at h with h0
    · obtain rfl := Option.some.inj h
      refine ⟨Nat.succ_pos n, fun k hk => ?_⟩
      obtain ⟨k, rfl⟩ := Nat.exists_eq_succ_of_ne_zero (Nat.ne_of_gt hk)
      rw [cstr, if_pos h0]
    · obtain ⟨t, ht, rfl⟩ := Option.map_eq_some_iff.mp h
      obtain ⟨hlt, hwin⟩ := ih ht
      refine ⟨Nat.succ_lt_succ hlt, fun k hk => ?_⟩
      obtain ⟨k, rfl⟩ := Nat.exists_eq_succ_of_ne_zero (Nat.ne_of_gt (Nat.zero_lt_of_lt hk))
      rw [cstr, if_neg h0, hwin k (Nat.lt_of_succ_lt_succ hk), Option.map_some]

/-- A NUL-free byte string followed by its terminator scans back whole. -/
theorem cstr_of_holds {m : Mem} {a n : ℕ} {s : Bytes} (h : Holds m a (s ++ [0])) (h0 : 0 ∉ s)
    (hn : s.length < n) : cstr m a n = some s := by
  induction s generalizing a n with
  | nil =>
    obtain ⟨n, rfl⟩ : ∃ k, n = k + 1 := ⟨n - 1, by simp at hn; omega⟩
    have : m a = 0 := (holds_cons.mp h).1
    simp [cstr, this]
  | cons b s ih =>
    obtain ⟨n, rfl⟩ : ∃ k, n = k + 1 := ⟨n - 1, by simp at hn; omega⟩
    rw [List.cons_append, holds_cons] at h
    have hb : b ≠ 0 := fun e => h0 (by simp [e])
    have ht := ih (n := n) h.2 (fun hm => h0 (List.mem_cons_of_mem _ hm)) (by simpa using hn)
    simp [cstr, h.1, hb, ht]

theorem scan_of_holds {m : Mem} {a n : ℕ} {s : Bytes} (h : Holds m a (s ++ [0])) (h0 : 0 ∉ s)
    (hn : s.length < n) : scan m a n = s := by
  induction s generalizing a n with
  | nil =>
    obtain ⟨n, rfl⟩ : ∃ k, n = k + 1 := ⟨n - 1, by simp at hn; omega⟩
    have : m a = 0 := (holds_cons.mp h).1
    simp [scan, this]
  | cons b s ih =>
    obtain ⟨n, rfl⟩ : ∃ k, n = k + 1 := ⟨n - 1, by simp at hn; omega⟩
    rw [List.cons_append, holds_cons] at h
    have hb : b ≠ 0 := fun e => h0 (by simp [e])
    have ht := ih (n := n) h.2 (fun hm => h0 (List.mem_cons_of_mem _ hm)) (by simpa using hn)
    simp [scan, h.1, hb, ht]

end ByteMem
