import Mathlib.Tactic

/-!
# Sequential processes

A `Process` is a finite tree of operations: it has ended, or it performs an operation and goes on
with the answer. It is how an asynchronous function is written down without fixing its environment:
every `await` is an operation, and what the operation does is said later.

There are two ways to say it. `run` answers every operation by a function of a state. `Safe`
quantifies over all answers a `Monitor` admits and checks every operation the process performs on the
way; it comes with the usual rules (`Safe.bind`, `Safe.mono`), and it survives single steps
(`Safe.step`), which is what an interleaving semantics needs.
-/

/-- A process with operations `Op`, their answers, and a result in `α`. -/
inductive Process (Op : Type) (Ans : Op → Type) (α : Type) : Type
  | done (a : α)
  | perform (op : Op) (next : Ans op → Process Op Ans α)

namespace Process

variable {Op : Type} {Ans : Op → Type} {α β σ : Type}

/-- Continue a process with another. -/
def bind : Process Op Ans α → (α → Process Op Ans β) → Process Op Ans β
  | .done a, f => f a
  | .perform op next, f => .perform op fun r => bind (next r) f

instance : Monad (Process Op Ans) where
  pure := .done
  bind := bind

/-- The process that performs one operation and returns its answer. -/
def op (o : Op) : Process Op Ans (Ans o) := .perform o .done

/-! ### Running against an environment -/

/-- Run a process in an environment that answers from its state. -/
def run (env : (o : Op) → σ → Ans o × σ) : Process Op Ans α → σ → α × σ
  | .done a, s => (a, s)
  | .perform o next, s => run env (next (env o s).1) (env o s).2

theorem run_bind (env : (o : Op) → σ → Ans o × σ) (p : Process Op Ans α)
    (f : α → Process Op Ans β) (s : σ) :
    run env (p >>= f) s = run env (f (run env p s).1) (run env p s).2 := by
  change run env (bind p f) s = _
  induction p generalizing s with
  | done a => rfl
  | perform o next ih => exact ih _ _

/-- **Projection.** If an environment only sees a part of another one's state, a run in it is that
part of the run in the other. -/
theorem run_project {τ : Type} {env : (o : Op) → σ → Ans o × σ} {env' : (o : Op) → τ → Ans o × τ}
    {π : σ → τ} (h : ∀ o s, env' o (π s) = ((env o s).1, π (env o s).2)) (p : Process Op Ans α)
    (s : σ) : run env' p (π s) = ((run env p s).1, π (run env p s).2) := by
  induction p generalizing s with
  | done a => rfl
  | perform o next ih =>
    rw [run, run, h]
    exact ih _ _

/-! ### Monitored processes -/

/-- An observer of a process: the operations it allows, the answers it admits, and how it moves. -/
structure Monitor (Op : Type) (Ans : Op → Type) (σ : Type) where
  allows : σ → Op → Prop
  admits : σ → (o : Op) → Ans o → Prop
  next : σ → (o : Op) → Ans o → σ

section Safe

variable (M : Monitor Op Ans σ)

/-- However its operations are answered, the process only performs allowed ones, and where it ends the
postcondition holds. -/
def Safe (Q : σ → α → Prop) : σ → Process Op Ans α → Prop
  | s, .done a => Q s a
  | s, .perform o next => M.allows s o ∧ ∀ r, M.admits s o r → Safe Q (M.next s o r) (next r)

variable {M} {Q : σ → α → Prop} {s : σ}

theorem Safe.bind {R : σ → β → Prop} {p : Process Op Ans α} {f : α → Process Op Ans β}
    (h : Safe M Q s p) (hf : ∀ t a, Q t a → Safe M R t (f a)) : Safe M R s (p >>= f) := by
  change Safe M R s (Process.bind p f)
  induction p generalizing s with
  | done a => exact hf s a h
  | perform o next ih => exact ⟨h.1, fun r hr => ih r (h.2 r hr)⟩

theorem Safe.mono {R : σ → α → Prop} {p : Process Op Ans α} (h : Safe M Q s p)
    (hQ : ∀ t a, Q t a → R t a) : Safe M R s p := by
  induction p generalizing s with
  | done a => exact hQ s a h
  | perform o next ih => exact ⟨h.1, fun r hr => ih r (h.2 r hr)⟩

/-- One step of a safe process. -/
theorem Safe.step {o : Op} {next : Ans o → Process Op Ans α}
    (h : Safe M Q s (.perform o next)) {r : Ans o} (hr : M.admits s o r) :
    M.allows s o ∧ Safe M Q (M.next s o r) (next r) := ⟨h.1, h.2 r hr⟩

end Safe

/-! ### Processes that may fail

Fallible code is `ExceptT` over a process: the same two readings of it, with a rule for each way to
sequence. -/

section Fallible

variable {ε : Type}

/-- Run fallible code. -/
def exec (env : (o : Op) → σ → Ans o × σ) (x : ExceptT ε (Process Op Ans) α) (s : σ) :
    Except ε α × σ := run env x.run s

variable {env : (o : Op) → σ → Ans o × σ} {x : ExceptT ε (Process Op Ans) α}
  {f : α → ExceptT ε (Process Op Ans) β} {s t : σ}

theorem exec_pure (a : α) : exec env (pure a : ExceptT ε (Process Op Ans) α) s = (.ok a, s) := rfl

theorem exec_throw (e : ε) : exec env (throw e : ExceptT ε (Process Op Ans) α) s = (.error e, s) :=
  rfl

theorem exec_lift_op (o : Op) :
    exec env (ExceptT.lift (op o) : ExceptT ε (Process Op Ans) (Ans o)) s =
      (.ok (env o s).1, (env o s).2) := rfl

theorem exec_bind_ok {a : α} (h : exec env x s = (.ok a, t)) :
    exec env (x >>= f) s = exec env (f a) t := by
  have hb := run_bind env x.run (ExceptT.bindCont f) s
  have h' : run env x.run s = (.ok a, t) := h
  rw [h'] at hb
  exact hb

theorem exec_bind_error {e : ε} (h : exec env x s = (.error e, t)) :
    exec env (x >>= f) s = (.error e, t) := by
  have hb := run_bind env x.run (ExceptT.bindCont f) s
  have h' : run env x.run s = (.error e, t) := h
  rw [h'] at hb
  exact hb

/-- What `tryCatch` does with the outcome of its first part. -/
def catchCont (g : ε → ExceptT ε (Process Op Ans) α) : Except ε α → Process Op Ans (Except ε α)
  | .ok a => .done (.ok a)
  | .error e => (g e).run

theorem run_tryCatch (x : ExceptT ε (Process Op Ans) α) (g : ε → ExceptT ε (Process Op Ans) α) :
    (tryCatch x g).run = x.run >>= catchCont g := by
  refine congrArg (Process.bind x.run) (funext fun r => ?_)
  cases r <;> rfl

theorem exec_tryCatch_ok {g : ε → ExceptT ε (Process Op Ans) α} {a : α}
    (h : exec env x s = (.ok a, t)) : exec env (tryCatch x g) s = (.ok a, t) := by
  have h' : run env x.run s = (.ok a, t) := h
  rw [exec, run_tryCatch, run_bind, h']
  rfl

theorem exec_tryCatch_error {g : ε → ExceptT ε (Process Op Ans) α} {e : ε}
    (h : exec env x s = (.error e, t)) : exec env (tryCatch x g) s = exec env (g e) t := by
  have h' : run env x.run s = (.error e, t) := h
  rw [exec, run_tryCatch, run_bind, h']
  rfl

variable {M : Monitor Op Ans σ} {Q : σ → Except ε β → Prop} {R : σ → Except ε α → Prop}

/-- Sequencing: the rest is safe from wherever the first part succeeds, and its failures are final. -/
theorem Safe.except_bind (h : Safe M R s x.run)
    (hok : ∀ t a, R t (.ok a) → Safe M Q t (f a).run)
    (herr : ∀ t e, R t (.error e) → Q t (.error e)) : Safe M Q s (x >>= f).run := by
  refine Safe.bind (f := ExceptT.bindCont f) h fun t r hr => ?_
  cases r with
  | ok a => exact hok t a hr
  | error e => exact herr t e hr

/-- Handling: failures go on in the handler. -/
theorem Safe.except_tryCatch {g : ε → ExceptT ε (Process Op Ans) α} {Q : σ → Except ε α → Prop}
    (h : Safe M R s x.run) (hok : ∀ t a, R t (.ok a) → Q t (.ok a))
    (herr : ∀ t e, R t (.error e) → Safe M Q t (g e).run) : Safe M Q s (tryCatch x g).run := by
  rw [run_tryCatch]
  refine h.bind fun t r hr => ?_
  cases r with
  | ok a => exact hok t a hr
  | error e => exact herr t e hr

/-- One operation, then the rest. -/
theorem Safe.except_op_bind {o : Op} {f : Ans o → ExceptT ε (Process Op Ans) β} (h : M.allows s o)
    (hf : ∀ r, M.admits s o r → Safe M Q (M.next s o r) (f r).run) :
    Safe M Q s (ExceptT.lift (op o) >>= f : ExceptT ε (Process Op Ans) β).run := ⟨h, hf⟩

end Fallible

end Process
