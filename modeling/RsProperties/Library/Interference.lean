import Mathlib
import RsProperties.Library.Process

/-!
# One writer and its observers

Processes whose operations act one at a time on a shared state. What the state means is given by an
invariant `I c s`, "the state `s` represents the contents `c`", over contents that only grow along a
preorder.

`Maintains` is the obligation of the only process that changes the state: after every single
operation the state represents some contents, and they have grown. `Observes` is the obligation of a
process that runs beside it: whatever the contents have grown to when an operation comes to be
performed, the operation leaves the state alone. Neither mentions the other, and each survives single
steps of its own process (`Maintains.step`, `Observes.step`); an observer also survives the growth
the writer causes (`Observes.of_le`). Together that is what an interleaving needs.
-/

namespace Process

variable {Op : Type} {Ans : Op → Type} {α β ε σ γ δ : Type} [Preorder γ] [Preorder δ]

section Defs

variable (act : (o : Op) → σ → Ans o × σ) (I : γ → σ → Prop)

/-- Alone on the state, the process keeps it representing growing contents, and where it ends the
postcondition holds. -/
def Maintains (Q : γ → σ → α → Prop) : γ → σ → Process Op Ans α → Prop
  | c, s, .done a => ∃ c', c ≤ c' ∧ I c' s ∧ Q c' s a
  | c, s, .perform o next => ∃ c', c ≤ c' ∧ I c' (act o s).2 ∧
      Maintains Q c' (act o s).2 (next (act o s).1)

/-- Whatever the contents grow to in between, the process leaves the state alone, and where it ends
the postcondition holds. -/
def Observes (Q : γ → α → Prop) : γ → Process Op Ans α → Prop
  | c, .done a => Q c a
  | c, .perform o next => ∀ c' s, c ≤ c' → I c' s →
      (act o s).2 = s ∧ Observes Q c' (next (act o s).1)

end Defs

variable {act : (o : Op) → σ → Ans o × σ} {I : γ → σ → Prop}

/-! ### The writer -/

section Maintains

variable {Q : γ → σ → α → Prop} {c c' : γ} {s : σ} {p : Process Op Ans α}

theorem Maintains.step {o : Op} {next : Ans o → Process Op Ans α}
    (h : Maintains act I Q c s (.perform o next)) : ∃ c', c ≤ c' ∧ I c' (act o s).2 ∧
      Maintains act I Q c' (act o s).2 (next (act o s).1) := h

/-- The contents may be known to be smaller than they are. -/
theorem Maintains.of_le (hc : c ≤ c') (h : Maintains act I Q c' s p) : Maintains act I Q c s p := by
  cases p with
  | done a =>
    obtain ⟨c'', hle, h⟩ := h
    exact ⟨c'', hc.trans hle, h⟩
  | perform o next =>
    obtain ⟨c'', hle, h⟩ := h
    exact ⟨c'', hc.trans hle, h⟩

theorem Maintains.bind {R : γ → σ → β → Prop} {f : α → Process Op Ans β}
    (h : Maintains act I Q c s p)
    (hf : ∀ c' t a, c ≤ c' → I c' t → Q c' t a → Maintains act I R c' t (f a)) :
    Maintains act I R c s (p >>= f) := by
  change Maintains act I R c s (Process.bind p f)
  induction p generalizing c s with
  | done a =>
    obtain ⟨c', hle, hI, hQ⟩ := h
    exact (hf c' s a hle hI hQ).of_le hle
  | perform o next ih =>
    obtain ⟨c', hle, hI, h⟩ := h
    exact ⟨c', hle, hI, ih _ h fun c'' t a hle' => hf c'' t a (hle.trans hle')⟩

theorem Maintains.mono {J : γ → σ → Prop} {R : γ → σ → α → Prop} (hI : ∀ c s, I c s → J c s)
    (hQ : ∀ c s a, I c s → Q c s a → R c s a) (h : Maintains act I Q c s p) :
    Maintains act J R c s p := by
  induction p generalizing c s with
  | done a =>
    obtain ⟨c', hle, hc, h⟩ := h
    exact ⟨c', hle, hI _ _ hc, hQ _ _ _ hc h⟩
  | perform o next ih =>
    obtain ⟨c', hle, hc, h⟩ := h
    exact ⟨c', hle, hI _ _ hc, ih _ h⟩

/-- Part of the contents may be forgotten. -/
theorem Maintains.map {J : δ → σ → Prop} {R : δ → σ → α → Prop} {f : δ → γ} {d : δ}
    (hf : Monotone f) (hJ : ∀ d s, J d s → I (f d) s) (hR : ∀ d s a, R d s a → Q (f d) s a)
    (h : Maintains act J R d s p) : Maintains act I Q (f d) s p := by
  induction p generalizing d s with
  | done a =>
    obtain ⟨d', hle, hd, h⟩ := h
    exact ⟨f d', hf hle, hJ _ _ hd, hR _ _ _ h⟩
  | perform o next ih =>
    obtain ⟨d', hle, hd, h⟩ := h
    exact ⟨f d', hf hle, hJ _ _ hd, ih _ h⟩

end Maintains

/-! ### The observers -/

section Observes

variable {Q : γ → α → Prop} {c c' : γ} {p : Process Op Ans α}

theorem Observes.step {o : Op} {next : Ans o → Process Op Ans α}
    (h : Observes act I Q c (.perform o next)) {s : σ} (hs : I c s) :
    (act o s).2 = s ∧ Observes act I Q c (next (act o s).1) := h c s le_rfl hs

/-- An observer that has not ended survives the growth of the contents. -/
theorem Observes.of_le {o : Op} {next : Ans o → Process Op Ans α} (hc : c ≤ c')
    (h : Observes act I Q c (.perform o next)) : Observes act I Q c' (.perform o next) :=
  fun c'' s hle hs => h c'' s (hc.trans hle) hs

/-- Undisturbed, an observer leaves the state alone and ends with its postcondition. -/
theorem Observes.run {s : σ} (h : Observes act I Q c p) (hs : I c s) :
    Q c (run act p s).1 ∧ (run act p s).2 = s := by
  induction p with
  | done a => exact ⟨h, rfl⟩
  | perform o next ih =>
    obtain ⟨he, h⟩ := h.step hs
    rw [Process.run, he]
    exact ih _ h

theorem Observes.mono {R : γ → α → Prop} (h : Observes act I Q c p)
    (hQ : ∀ c' a, c ≤ c' → Q c' a → R c' a) : Observes act I R c p := by
  induction p generalizing c with
  | done a => exact hQ c a le_rfl h
  | perform o next ih =>
    intro c' s hle hs
    obtain ⟨he, h⟩ := h c' s hle hs
    exact ⟨he, ih _ h fun c'' a hle' => hQ c'' a (hle.trans hle')⟩

theorem Observes.bind {R : γ → β → Prop} {f : α → Process Op Ans β} (h : Observes act I Q c p)
    (hf : ∀ c' a, c ≤ c' → Q c' a → Observes act I R c' (f a)) : Observes act I R c (p >>= f) := by
  change Observes act I R c (Process.bind p f)
  induction p generalizing c with
  | done a => exact hf c a le_rfl h
  | perform o next ih =>
    intro c' s hle hs
    obtain ⟨he, h⟩ := h c' s hle hs
    exact ⟨he, ih _ h fun c'' a hle' => hf c'' a (hle.trans hle')⟩

end Observes

/-! ### Undisturbed stretches of the writer

Two ways to see that the writer keeps its contract without opening its continuation. A stretch that
stays inside a set of states represents the same contents all along. And a process all of whose
operations but the last stay in the set may change the contents with its last one: what it ends in is
what an undisturbed run ends in. -/

section Stretches

variable (act) in
/-- Alone on the state, the process stays in `S`, and where it ends the postcondition holds. -/
def Stays (S : σ → Prop) (Q : σ → α → Prop) (s : σ) (p : Process Op Ans α) : Prop :=
  Maintains act (fun (_ : Unit) t => S t) (fun _ t a => Q t a) () s p

variable (act) in
/-- Alone on the state, every operation of the process but the last leaves it in `S`. -/
def UntilLast (S : σ → Prop) : σ → Process Op Ans α → Prop
  | _, .done _ => True
  | s, .perform o next => (∃ a, next (act o s).1 = .done a) ∨
      S (act o s).2 ∧ UntilLast S (act o s).2 (next (act o s).1)

variable {S : σ → Prop} {Q : σ → α → Prop} {s : σ} {p : Process Op Ans α}

theorem Stays.done {a : α} (hs : S s) (hQ : Q s a) : Stays act S Q s (.done a) :=
  ⟨(), le_rfl, hs, hQ⟩

/-- One operation, then the rest. -/
theorem Stays.perform {o : Op} {next : Ans o → Process Op Ans α} (hs : S (act o s).2)
    (h : Stays act S Q (act o s).2 (next (act o s).1)) : Stays act S Q s (.perform o next) :=
  ⟨(), le_rfl, hs, h⟩

theorem Stays.untilLast_bind {f : α → Process Op Ans β} (h : Stays act S Q s p)
    (hf : ∀ t a, S t → Q t a → UntilLast act S t (f a)) : UntilLast act S s (p >>= f) := by
  change UntilLast act S s (Process.bind p f)
  induction p generalizing s with
  | done a =>
    obtain ⟨_, -, hs, hQ⟩ := h
    exact hf s a hs hQ
  | perform o next ih =>
    obtain ⟨_, -, hs, h⟩ := h
    exact .inr ⟨hs, ih _ h⟩

theorem UntilLast.mono {S' : σ → Prop} (h : UntilLast act S s p) (hS : ∀ t, S t → S' t) :
    UntilLast act S' s p := by
  induction p generalizing s with
  | done a => trivial
  | perform o next ih => exact h.imp id fun ⟨ho, h⟩ => ⟨hS _ ho, ih _ h⟩

/-- **The rule of the publishing store.** If every state before the last operation still represents the
old contents, only the end of the undisturbed run has to be looked at. -/
theorem UntilLast.maintains {c : γ} {R : γ → σ → α → Prop} (h : UntilLast act (I c) s p)
    (hs : I c s) (hend : ∃ c', c ≤ c' ∧ I c' (run act p s).2 ∧
      R c' (run act p s).2 (run act p s).1) : Maintains act I R c s p := by
  induction p generalizing s with
  | done a => exact hend
  | perform o next ih =>
    rcases h with ⟨a, ha⟩ | ⟨ho, h⟩
    · rw [run, ha] at hend
      obtain ⟨c', hle, hI, hR⟩ := hend
      refine ⟨c', hle, hI, ?_⟩
      rw [ha]
      exact ⟨c', le_rfl, hI, hR⟩
    · exact ⟨c, le_rfl, ho, ih _ h ho hend⟩

variable (act) in
/-- Whatever the state, the process leaves it alone. -/
def ReadOnly (p : Process Op Ans α) : Prop :=
  Observes act (fun (_ : Unit) _ => True) (fun _ _ => True) () p

theorem ReadOnly.step {o : Op} {next : Ans o → Process Op Ans α}
    (h : ReadOnly act (.perform o next)) (s : σ) :
    (act o s).2 = s ∧ ReadOnly act (next (act o s).1) := h () s le_rfl trivial

/-- The writer may load in between. -/
theorem ReadOnly.stays (h : ReadOnly act p) (hs : S s) : Stays act S (fun t _ => t = s) s p := by
  induction p with
  | done a => exact .done hs rfl
  | perform o next ih =>
    obtain ⟨he, h⟩ := h.step s
    refine .perform (he.symm ▸ hs) ?_
    rw [he]
    exact ih _ h

end Stretches

/-! ### Fallible code -/

section Fallible

variable {x : ExceptT ε (Process Op Ans) α} {f : α → ExceptT ε (Process Op Ans) β} {c : γ} {s : σ}

theorem Maintains.except_bind {Q : γ → σ → Except ε α → Prop} {R : γ → σ → Except ε β → Prop}
    (h : Maintains act I Q c s x.run)
    (hok : ∀ c' t a, c ≤ c' → I c' t → Q c' t (.ok a) → Maintains act I R c' t (f a).run)
    (herr : ∀ c' t e, c ≤ c' → I c' t → Q c' t (.error e) → R c' t (.error e)) :
    Maintains act I R c s (x >>= f).run := by
  refine Maintains.bind (f := ExceptT.bindCont f) h fun c' t r hle hI hr => ?_
  cases r with
  | ok a => exact hok c' t a hle hI hr
  | error e => exact ⟨c', le_rfl, hI, herr c' t e hle hI hr⟩

theorem Observes.except_bind {Q : γ → Except ε α → Prop} {R : γ → Except ε β → Prop}
    (h : Observes act I Q c x.run)
    (hok : ∀ c' a, c ≤ c' → Q c' (.ok a) → Observes act I R c' (f a).run)
    (herr : ∀ c' e, c ≤ c' → Q c' (.error e) → R c' (.error e)) :
    Observes act I R c (x >>= f).run := by
  refine Observes.bind (f := ExceptT.bindCont f) h fun c' r hle hr => ?_
  cases r with
  | ok a => exact hok c' a hle hr
  | error e => exact herr c' e hle hr

variable {S : σ → Prop} {Q : σ → Except ε α → Prop}

theorem Stays.except_bind {R : σ → Except ε β → Prop} (h : Stays act S Q s x.run)
    (hok : ∀ t a, S t → Q t (.ok a) → Stays act S R t (f a).run)
    (herr : ∀ t e, Q t (.error e) → R t (.error e)) : Stays act S R s (x >>= f).run :=
  Maintains.except_bind h (fun _ t a _ => hok t a) fun _ t e _ _ => herr t e

theorem Stays.untilLast_except_bind (h : Stays act S Q s x.run)
    (hok : ∀ t a, S t → Q t (.ok a) → UntilLast act S t (f a).run) :
    UntilLast act S s (x >>= f).run := by
  refine Stays.untilLast_bind (f := ExceptT.bindCont f) h fun t r hs hr => ?_
  cases r with
  | ok a => exact hok t a hs hr
  | error e => trivial

theorem ReadOnly.untilLast_except_bind (h : ReadOnly act x.run) (hs : S s)
    (hf : ∀ a, UntilLast act S s (f a).run) : UntilLast act S s (x >>= f).run :=
  (h.stays hs).untilLast_except_bind fun _ a _ ht => ht ▸ hf a

theorem ReadOnly.except_bind (h : ReadOnly act x.run) (hf : ∀ a, ReadOnly act (f a).run) :
    ReadOnly act (x >>= f).run :=
  Observes.except_bind h (fun _ a _ _ => hf a) fun _ _ _ _ => trivial

end Fallible

end Process
