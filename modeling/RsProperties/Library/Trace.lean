import Mathlib.Data.List.Basic
import Mathlib.Tactic

/-!
# Runs with a history

A labelled transition system whose runs carry the list of labels taken so far, oldest first. An
invariant may speak about the history as well as the state (`Run.invariant`).

`SplitLast p H H₁ x H₂` cuts a history at the last label with a property. It is how an invariant
refers to "the latest such event and what happened since": the cut is unique, and one more label
either extends the part behind the cut or becomes the new cut.
-/

namespace Trace

variable {σ ε : Type*}

/-- The states reachable from an initial one, with the labels taken. -/
inductive Run (init : σ → Prop) (step : σ → ε → σ → Prop) : List ε → σ → Prop
  | start {s : σ} (h : init s) : Run init step [] s
  | snoc {H : List ε} {s s' : σ} {x : ε} (h : Run init step H s) (hs : step s x s') :
      Run init step (H ++ [x]) s'

/-- **The invariant rule.** -/
theorem Run.invariant {init : σ → Prop} {step : σ → ε → σ → Prop} {I : List ε → σ → Prop}
    (h0 : ∀ s, init s → I [] s)
    (hstep : ∀ H s x s', I H s → step s x s' → I (H ++ [x]) s') {H : List ε} {s : σ}
    (h : Run init step H s) : I H s := by
  induction h with
  | start h => exact h0 _ h
  | snoc _ hs ih => exact hstep _ _ _ _ ih hs

/-- Every prefix of a run's history is the history of a run, continued by a step. -/
theorem Run.exists_step {init : σ → Prop} {step : σ → ε → σ → Prop} {H H' : List ε} {x : ε}
    {s : σ} (h : Run init step (H ++ x :: H') s) :
    ∃ s₁ s₂, Run init step H s₁ ∧ step s₁ x s₂ := by
  generalize hK : H ++ x :: H' = K at h
  induction h generalizing H' with
  | start => simp at hK
  | @snoc K s₁ s₂ y h hs ih =>
    rcases List.eq_nil_or_concat H' with rfl | ⟨L, z, rfl⟩
    · obtain ⟨rfl, hxy⟩ := List.append_inj' hK rfl
      obtain rfl : x = y := by simpa using hxy
      exact ⟨_, _, h, hs⟩
    · have hK' : (H ++ x :: L) ++ [z] = K ++ [y] := by simpa using hK
      exact ih (List.append_inj' hK' rfl).1

/-- A run goes on with a run from where it ended. -/
theorem Run.append {init : σ → Prop} {step : σ → ε → σ → Prop} {H L : List ε} {s t : σ}
    (h : Run init step H s) (h' : Run (· = s) step L t) : Run init step (H ++ L) t := by
  induction h' with
  | start ht => rwa [ht, List.append_nil]
  | snoc _ hs ih => exact List.append_assoc _ _ _ ▸ ih.snoc hs

/-- **Forward simulation**: a system whose every step is answered by a step with the same label has the
runs of the other. -/
theorem Run.simulates {τ : Type*} {init : σ → Prop} {step : σ → ε → σ → Prop} {init' : τ → Prop}
    {step' : τ → ε → τ → Prop} {R : σ → τ → Prop} (h0 : ∀ s, init s → ∃ t, init' t ∧ R s t)
    (hstep : ∀ s x s' t, R s t → step s x s' → ∃ t', step' t x t' ∧ R s' t') {H : List ε} {s : σ}
    (h : Run init step H s) : ∃ t, Run init' step' H t ∧ R s t := by
  induction h with
  | start hs =>
    obtain ⟨t, ht, hr⟩ := h0 _ hs
    exact ⟨t, .start ht, hr⟩
  | snoc _ hs ih =>
    obtain ⟨t, ht, hr⟩ := ih
    obtain ⟨t', ht', hr'⟩ := hstep _ _ _ t hr hs
    exact ⟨t', ht.snoc ht', hr'⟩

/-- The cut of a history at its last label with the property `p`. -/
structure SplitLast (p : ε → Prop) (H H₁ : List ε) (x : ε) (H₂ : List ε) : Prop where
  eq : H = H₁ ++ x :: H₂
  mark : p x
  rest : ∀ y ∈ H₂, ¬ p y

namespace SplitLast

variable {p : ε → Prop} {H H₁ H₂ : List ε} {x : ε}

/-- A label without the property extends the part behind the cut. -/
theorem snoc (h : SplitLast p H H₁ x H₂) {y : ε} (hy : ¬ p y) :
    SplitLast p (H ++ [y]) H₁ x (H₂ ++ [y]) := by
  refine ⟨by rw [h.eq, List.append_assoc, List.cons_append], h.mark, fun z hz => ?_⟩
  rcases List.mem_append.mp hz with hz | hz
  · exact h.rest z hz
  · rwa [List.mem_singleton.mp hz]

/-- A label without the property has not moved the cut. -/
theorem of_snoc {y : ε} (h : SplitLast p (H ++ [y]) H₁ x H₂) (hy : ¬ p y) :
    ∃ L, H₂ = L ++ [y] ∧ SplitLast p H H₁ x L := by
  rcases List.eq_nil_or_concat H₂ with rfl | ⟨L, z, rfl⟩
  · obtain ⟨-, hyx⟩ := List.append_inj' h.eq rfl
    obtain rfl : y = x := by simpa using hyx
    exact absurd h.mark hy
  · have heq : H ++ [y] = (H₁ ++ x :: L) ++ [z] := by simpa using h.eq
    obtain ⟨rfl, hyz⟩ := List.append_inj' heq rfl
    obtain rfl : y = z := by simpa using hyz
    exact ⟨L, by simp, rfl, h.mark, fun w hw => h.rest w (by simp [hw])⟩

/-- What came before does not matter to the cut. -/
theorem append_left (h : SplitLast p H H₁ x H₂) (K : List ε) :
    SplitLast p (K ++ H) (K ++ H₁) x H₂ :=
  ⟨by rw [h.eq, List.append_assoc], h.mark, h.rest⟩

/-- A label with the property is the new cut. -/
theorem mk_snoc {y : ε} (hy : p y) : SplitLast p (H ++ [y]) H y [] :=
  ⟨rfl, hy, by simp⟩

/-- The cut is unique. -/
theorem unique {H₁' H₂' : List ε} {x' : ε} (h : SplitLast p H H₁ x H₂)
    (h' : SplitLast p H H₁' x' H₂') : H₁ = H₁' ∧ x = x' ∧ H₂ = H₂' := by
  have heq := h.eq.symm.trans h'.eq
  rcases List.append_eq_append_iff.mp heq with ⟨L, rfl, hL⟩ | ⟨L, rfl, hL⟩
  · cases L with
    | nil => simpa using hL
    | cons z L =>
      obtain ⟨rfl, rfl⟩ : x = z ∧ H₂ = L ++ x' :: H₂' := by simpa using hL
      exact absurd h'.mark (h.rest x' (by simp))
  · cases L with
    | nil => simpa [eq_comm] using hL
    | cons z L =>
      obtain ⟨rfl, rfl⟩ : x' = z ∧ H₂' = L ++ x :: H₂ := by simpa using hL
      exact absurd h.mark (h'.rest x (by simp))

end SplitLast

end Trace
